import Bamts.BigIntLiteral
import Mathlib.Tactic.LinearCombination

/-! The decimal text of a big integer literal: canonical, within the limits that were checked before the conversion. -/
set_option linter.all false
namespace Bamts.BigIntLiteral
open ByteText CheckedWord Numeral RadixLiteral

variable {radix : Nat} {digits : Text} {scan : Scan} {c : Char}

theorem decimalCanonical (n) : decimalText n = ['0'] ∨ (decimalText n).head? ≠ some '0' := by
  rcases @numeralCanonical 10 n with zero | ⟨-,head⟩
  · rw [decimalText,zero]
    exact .inl rfl
  · right
    rw [decimalText,List.head?_map]
    intro same
    obtain ⟨d,first,char⟩ := Option.map_eq_some_iff.mp same
    have small := numeralBelow (show 1 < 10 by decide) n d (List.mem_of_mem_head? first)
    have zero : d = 0 := by
      have value := (digitCharFacts small).2.1
      rw [char] at value
      exact (Option.some.inj value).symm
    rw [zero] at first
    exact head first

/-- Zeros in front do not count. -/
theorem readSignificant (ds) : read radix (ds.dropWhile (· == 0)) = read radix ds := by
  induction ds with
  | nil => rfl
  | cons d ds ih =>
    by_cases zero : d = 0
    · rw [List.dropWhile_cons_of_pos (by rw [zero]; rfl),ih,readCons,zero,Nat.zero_mul,Nat.zero_add]
    · rw [List.dropWhile_cons_of_neg (by rwa [beq_iff_eq])]

theorem decimalDigit {d} (digit : toDigit 10 c = some d) : d < 10 ∧ c = ByteText.digitChar d := by
  have less := digitLess digit
  refine ⟨less,?_⟩
  rw [toDigit] at digit
  split at digit
  · rename_i small
    have value := Option.some.inj digit
    change (if 48 ≤ c.toNat ∧ c.toNat ≤ 57 then c.toNat-48 else if 97 ≤ c.toNat ∧ c.toNat ≤ 122 then c.toNat-87
      else if 65 ≤ c.toNat ∧ c.toNat ≤ 90 then c.toNat-55 else 10) = d at value
    have place : 48+d = c.toNat := by
      split at value
      · omega
      · split at value
        · omega
        · split at value <;> omega
    rw [ByteText.digitChar,place,Char.ofNat_toNat]
  · cases digit

theorem zeroChar {d} (small : d < 10) : ByteText.digitChar d = '0' ↔ d = 0 := by
  have table : ∀ d : Fin 10, ByteText.digitChar d = '0' ↔ d.val = 0 := by decide
  exact table ⟨d,small⟩

theorem pushAll (text output : Text) : text.foldl pushSignificant (true,output) = (true,output ++ text) := by
  induction text generalizing output with
  | nil => rw [List.append_nil]; rfl
  | cons c text ih =>
    rw [List.foldl_cons,pushSignificant,if_pos (.inr rfl),ih,List.append_assoc]
    rfl

theorem pushSignificantDigits (ds : List Nat) (below : ∀ d ∈ ds, d < 10) :
    ((ds.map ByteText.digitChar).foldl pushSignificant (false,[])).2 = (ds.dropWhile (· == 0)).map ByteText.digitChar := by
  induction ds with
  | nil => rfl
  | cons d ds ih =>
    have char := zeroChar (below d List.mem_cons_self)
    rw [List.map_cons,List.foldl_cons,pushSignificant]
    by_cases zero : d = 0
    · have skipped : ¬(ByteText.digitChar d ≠ '0' ∨ false = true) := by
        rw [char.mpr zero]
        decide
      rw [if_neg skipped,ih fun e at_ => below e (List.mem_cons_of_mem d at_),List.dropWhile_cons_of_pos (by rw [zero]; rfl)]
    · rw [if_pos (.inl fun same => zero (char.mp same)),pushAll,List.dropWhile_cons_of_neg (by rwa [beq_iff_eq])]
      rfl

theorem significantBelow : ∀ d ∈ significant radix digits, d < radix := by
  intro d at_
  obtain ⟨c,-,digit⟩ := List.mem_filterMap.mp ((List.dropWhile_sublist _).subset at_)
  exact digitLess digit

/-- Digits in a radix are the numeral of what they denote, but for the zeros in front. -/
theorem significantNumeral (base : 1 < radix) (digits : Text) :
    numeral radix (denoted digits radix) = if significant radix digits = [] then [0] else significant radix digits := by
  have value : denoted digits radix = read radix (significant radix digits) := (readSignificant _).symm
  rw [value]
  split
  · rename_i empty
    rw [empty]
    rfl
  · rename_i some_
    refine (canonicalUnique base significantBelow (.inr ⟨some_,fun zero => ?_⟩)).symm
    obtain ⟨d,rest,split⟩ := List.exists_cons_of_ne_nil some_
    rw [split,List.head?_cons] at zero
    exact significantHead split (Option.some.inj zero)

/-- The decimal branch leaves out the zeros in front. -/
theorem decimalOutputText (known : ∀ c ∈ digits, c = '_' ∨ (toDigit 10 c).isSome) : decimalOutput digits = decimalText (denoted digits 10) := by
  have spelled : ∀ text : Text, (∀ c ∈ text, (toDigit 10 c).isSome = true) → (text.filterMap (toDigit 10)).map ByteText.digitChar = text := by
    intro text all
    induction text with
    | nil => rfl
    | cons c text ih =>
      obtain ⟨d,digit⟩ := Option.isSome_iff_exists.mp (all c List.mem_cons_self)
      rw [List.filterMap_cons_some digit,List.map_cons,ih fun e at_ => all e (List.mem_cons_of_mem c at_),← (decimalDigit digit).2]
  have below : ∀ d ∈ digits.filterMap (toDigit 10), d < 10 := by
    intro d at_
    obtain ⟨c,-,digit⟩ := List.mem_filterMap.mp at_
    exact digitLess digit
  have chars := spelled _ (digitsKnown known)
  rw [filteredDigits] at chars
  rw [decimalOutput,decimalText,significantNumeral (by decide),← chars]
  rw [pushSignificantDigits _ below]
  change (if ((significant 10 digits).map ByteText.digitChar).isEmpty then ['0'] else (significant 10 digits).map ByteText.digitChar) = _
  cases significant 10 digits with
  | nil => rfl
  | cons d rest => rfl

theorem limbStepExact {carry limb} (narrow : radix ≤ 16) (carried : carry ≤ 16) (below : limb < limbBase) :
    limbStep radix carry limb = some ((limb*radix+carry)%limbBase,(limb*radix+carry)/limbBase) ∧ (limb*radix+carry)/limbBase ≤ 16 := by
  have base : limbBase = 1000000000 := rfl
  have product : limb*radix ≤ 999999999*16 := Nat.mul_le_mul (by omega) narrow
  have rest := Nat.mod_lt (limb*radix+carry) (show 0 < limbBase by decide)
  have few : (limb*radix+carry)/limbBase ≤ 16 := by
    rw [base]
    omega
  refine ⟨?_,few⟩
  rw [limbStep,multiplyExact (by omega),Option.bind_eq_bind,Option.bind_some,addExact (by omega),Option.bind_some,remainderExact (by decide),
    Option.bind_some,divideExact (by decide),Option.bind_some,Nat.mod_eq_of_lt (by omega)]

/-- A pass multiplies by the radix and adds the digit, the carry above the limbs. -/
theorem limbPassExact (narrow : radix ≤ 16) (limbs) (below : ∀ limb ∈ limbs, limb < limbBase) : ∀ {carry}, carry ≤ 16 →
    ∃ out above, limbPass radix carry limbs = some (out,above) ∧ out.length = limbs.length ∧ (∀ limb ∈ out, limb < limbBase) ∧ above ≤ 16 ∧
      Nat.ofDigits limbBase out+above*limbBase^limbs.length = Nat.ofDigits limbBase limbs*radix+carry := by
  induction limbs with
  | nil =>
    intro carry carried
    refine ⟨[],carry,rfl,rfl,fun limb at_ => absurd at_ List.not_mem_nil,carried,?_⟩
    rw [Nat.ofDigits_nil,List.length_nil,pow_zero,Nat.mul_one,Nat.zero_mul]
  | cons limb limbs ih =>
    intro carry carried
    obtain ⟨step,small⟩ := limbStepExact narrow carried (below limb List.mem_cons_self)
    obtain ⟨out,above,run,length,below',above_,value⟩ := ih (fun other at_ => below other (List.mem_cons_of_mem limb at_)) small
    refine ⟨(limb*radix+carry)%limbBase :: out,above,?_,by rw [List.length_cons,length,List.length_cons],?_,above_,?_⟩
    · rw [limbPass,step,Option.bind_eq_bind,Option.bind_some]
      dsimp only
      rw [run]
      rfl
    · intro other at_
      rcases List.mem_cons.mp at_ with rfl | rest
      · exact Nat.mod_lt _ (by decide)
      · exact below' other rest
    · have split := Nat.mod_add_div (limb*radix+carry) limbBase
      rw [Nat.ofDigits_cons,Nat.ofDigits_cons,List.length_cons,pow_succ]
      linear_combination limbBase*value+split

/-- The limbs are the numeral of a number in their base, from the lowest up. -/
def Spell (limbs : List Nat) (n : Nat) : Prop := limbs.reverse = numeral limbBase n

theorem Spell.facts {limbs n} (spell : Spell limbs n) :
    Nat.ofDigits limbBase limbs = n ∧ (∀ limb ∈ limbs, limb < limbBase) ∧ limbs ≠ [] := by
  have read_ := @readNumeral limbBase n
  rw [← spell,readReverse] at read_
  refine ⟨read_,fun limb at_ => ?_,fun empty => ?_⟩
  · refine numeralBelow (by decide) n limb ?_
    rw [← spell]
    exact List.mem_reverse.mpr at_
  · have positive := @numeralPositive limbBase n
    rw [← spell,empty] at positive
    exact absurd positive (Nat.lt_irrefl 0)

/-- Limbs with no zero above are the numeral of their value. -/
theorem spellOf {limbs} (below : ∀ limb ∈ limbs, limb < limbBase) (some_ : limbs ≠ [])
    (large : limbBase^(limbs.length-1) ≤ Nat.ofDigits limbBase limbs) : Spell limbs (Nat.ofDigits limbBase limbs) := by
  have canonical : Canonical limbs.reverse := by
    refine .inr ⟨fun empty => some_ (List.reverse_eq_nil_iff.mp empty),fun zero => ?_⟩
    rw [List.head?_reverse,List.getLast?_eq_some_getLast some_] at zero
    have split := List.dropLast_append_getLast some_
    rw [Option.some.inj zero] at split
    rw [← split,Nat.ofDigits_append,Nat.ofDigits_singleton,Nat.mul_zero,Nat.add_zero,List.length_append,List.length_singleton,Nat.add_sub_cancel] at large
    refine absurd large (Nat.not_le.mpr (Nat.ofDigits_lt_base_pow_length (by decide) fun limb at_ => below limb (List.dropLast_subset limbs at_)))
  have unique := canonicalUnique (by decide) (fun limb at_ => below limb (List.mem_reverse.mp at_)) canonical
  rwa [readReverse] at unique

theorem Spell.length {limbs n cap} (spell : Spell limbs n) (positive : 0 < cap) : limbs.length ≤ cap ↔ n < limbBase^cap := by
  rw [← List.length_reverse,spell]
  exact numeralLength (by decide) positive

theorem Spell.large {limbs n} (spell : Spell limbs n) (some_ : n ≠ 0) : limbBase^(limbs.length-1) ≤ n := by
  rcases Nat.eq_zero_or_pos (limbs.length-1) with one | more
  · rw [one,pow_zero]
    exact Nat.one_le_iff_ne_zero.mpr some_
  · by_contra less
    have short := (spell.length more).mpr (Nat.not_le.mp less)
    omega

/-- The limbs after a pass, with the carry on top when there is one. -/
theorem passSpell {limbs out n d above} (base : 1 < radix) (spell : Spell limbs n) (some_ : ¬(n = 0 ∧ d = 0))
    (length : out.length = limbs.length) (below : ∀ limb ∈ out, limb < limbBase) (small : above ≤ 16)
    (value : Nat.ofDigits limbBase out+above*limbBase^limbs.length = Nat.ofDigits limbBase limbs*radix+d) :
    Spell (if above ≠ 0 then out ++ [above%2^32] else out) (n*radix+d) := by
  have base_ : limbBase = 1000000000 := rfl
  have positive : limbs ≠ [] := spell.facts.2.2
  rw [spell.facts.1] at value
  by_cases carry : above = 0
  · rw [carry,Nat.zero_mul,Nat.add_zero] at value
    rw [if_neg (not_not.mpr carry),← value]
    refine spellOf below (List.ne_nil_of_length_pos (by rw [length]; exact List.length_pos_of_ne_nil positive)) ?_
    rw [value,length]
    rcases Nat.eq_zero_or_pos n with zero | more
    · have one : limbs.length-1 = 0 := by
        have short := (spell.length Nat.one_pos).mpr (by rw [zero]; decide)
        omega
      rw [one,pow_zero]
      omega
    · calc limbBase^(limbs.length-1) ≤ n := spell.large more.ne'
        _ ≤ n*radix := Nat.le_mul_of_pos_right n (by omega)
        _ ≤ n*radix+d := Nat.le_add_right _ _
  · have whole : Nat.ofDigits limbBase (out ++ [above]) = n*radix+d := by
      rw [Nat.ofDigits_append,Nat.ofDigits_singleton,length,Nat.mul_comm,value]
    rw [if_pos carry,Nat.mod_eq_of_lt (by omega),← whole]
    refine spellOf (fun limb at_ => ?_) (List.append_ne_nil_of_right_ne_nil _ (List.cons_ne_nil _ _)) ?_
    · rcases List.mem_append.mp at_ with front | last
      · exact below limb front
      · rw [List.mem_singleton.mp last]
        omega
    · rw [whole,← value,List.length_append,List.length_singleton,Nat.add_sub_cancel,length]
      exact le_add_left (Nat.le_mul_of_pos_left _ (Nat.pos_of_ne_zero carry))

theorem nextPositive {n d} (base : 1 < radix) (some_ : ¬(n = 0 ∧ d = 0)) : n*radix+d ≠ 0 := by
  intro zero
  obtain ⟨first,second⟩ := Nat.add_eq_zero_iff.mp zero
  exact some_ ⟨(Nat.mul_eq_zero.mp first).resolve_right (by omega),second⟩

theorem pushSpell {state n d} (base : 1 < radix) (narrow : radix ≤ 16) (spell : Spell state.limbs n)
    (significant_ : state.significant = true ↔ n ≠ 0) (digit : toDigit radix c = some d) : ∃ state', pushDigit radix state c = some state' ∧
      Spell state'.limbs (n*radix+d) ∧ (state'.significant = true ↔ n*radix+d ≠ 0) ∧
      state'.limbOps = state.limbOps+if n = 0 ∧ d = 0 then 0 else state.limbs.length := by
  rw [pushDigit,digit,Option.bind_eq_bind,Option.bind_some]
  by_cases skip : n = 0 ∧ d = 0
  · have zero : n*radix+d = 0 := by rw [skip.1,skip.2,Nat.zero_mul]
    have clear : state.significant = false := Bool.eq_false_iff.mpr fun set => significant_.mp set skip.1
    rw [if_pos ⟨skip.2,by rw [clear]; rfl⟩,if_pos skip,zero]
    rw [skip.1] at spell significant_
    exact ⟨state,rfl,spell,significant_,rfl⟩
  · have taken : ¬(d = 0 ∧ (!state.significant) = true) := by
      rintro ⟨zero,clear⟩
      refine skip ⟨?_,zero⟩
      by_contra some_
      rw [significant_.mpr some_] at clear
      cases clear
    obtain ⟨out,above,run,length,below,small,value⟩ := limbPassExact narrow state.limbs spell.facts.2.1 (show d ≤ 16 by have := digitLess digit; omega)
    rw [if_neg taken,if_neg skip,run,Option.bind_eq_bind,Option.bind_some]
    exact ⟨_,rfl,passSpell base spell skip length below small value,iff_of_true rfl (nextPositive base skip),rfl⟩

/-- How many digits take a pass. -/
def passes (n : Nat) (ds : List Nat) : Nat := if n = 0 then (ds.dropWhile (· == 0)).length else ds.length

theorem passesZero (ds) : passes 0 (0 :: ds) = passes 0 ds := rfl

theorem passesNext {n d} (base : 1 < radix) (some_ : ¬(n = 0 ∧ d = 0)) (ds) : passes n (d :: ds) = 1+passes (n*radix+d) ds := by
  rw [passes,passes,if_neg (nextPositive base some_),Nat.add_comm 1]
  split
  · rename_i zero
    rw [List.dropWhile_cons_of_neg (by rw [beq_iff_eq]; exact fun d_ => some_ ⟨zero,d_⟩),List.length_cons]
  · rw [List.length_cons]

theorem convertRun (base : 1 < radix) (narrow : radix ≤ 16) (text : Text) (known : ∀ c ∈ text, (toDigit radix c).isSome = true) :
    ∀ {state : Conversion} {n : Nat}, Spell state.limbs n → (state.significant = true ↔ n ≠ 0) → ∃ state',
      text.foldlM (pushDigit radix) state = some state' ∧ Spell state'.limbs ((text.filterMap (toDigit radix)).foldl (fun n d => n*radix+d) n) ∧
      ∀ cap, 0 < cap → (text.filterMap (toDigit radix)).foldl (fun n d => n*radix+d) n < limbBase^cap →
        state'.limbOps ≤ state.limbOps+passes n (text.filterMap (toDigit radix))*cap := by
  induction text with
  | nil => exact fun {state n} spell _ => ⟨state,rfl,spell,fun cap _ _ => Nat.le_add_right _ _⟩
  | cons c text ih =>
    intro state n spell significant_
    obtain ⟨d,digit⟩ := Option.isSome_iff_exists.mp (known c List.mem_cons_self)
    obtain ⟨next,run,spell',significant',ops⟩ := pushSpell base narrow spell significant_ digit
    obtain ⟨state',run',spelled,bound⟩ := ih (fun e at_ => known e (List.mem_cons_of_mem c at_)) spell' significant'
    rw [List.filterMap_cons_some digit,List.foldl_cons]
    refine ⟨state',?_,spelled,fun cap positive less => ?_⟩
    · rw [List.foldlM_cons,run]
      exact run'
    · have later := bound cap positive less
      rw [ops] at later
      by_cases skip : n = 0 ∧ d = 0
      · rw [if_pos skip,Nat.add_zero] at later
        rw [skip.1,skip.2,Nat.zero_mul] at later
        rw [skip.1,skip.2,passesZero]
        exact later
      · rw [if_neg skip] at later
        rw [passesNext base skip,Nat.add_mul,Nat.one_mul]
        have grows : n ≤ (text.filterMap (toDigit radix)).foldl (fun n d => n*radix+d) (n*radix+d) := by
          rw [readFrom]
          calc n ≤ n*radix+d := le_add_right (Nat.le_mul_of_pos_right n (by omega))
            _ ≤ (n*radix+d)*radix^(text.filterMap (toDigit radix)).length := Nat.le_mul_of_pos_right _ (Nat.pow_pos (by omega))
            _ ≤ _ := Nat.le_add_right _ _
        have short := (spell.length positive).mpr (lt_of_le_of_lt grows less)
        omega

/-- Below the first limb all are padded to their nine places. -/
theorem decimalLimbs {top} (some_ : top ≠ 0) (rest) (below : ∀ limb ∈ rest, limb < limbBase) :
    decimalText (read limbBase (top :: rest)) = decimalText top ++ rest.flatMap fun limb : Nat => padInteger 9 limb := by
  induction rest using List.reverseRecOn with
  | nil =>
    have one : read limbBase [top] = top := Nat.zero_add top
    rw [one,List.flatMap_nil,List.append_nil]
  | append_singleton rest limb ih =>
    have small := below limb (List.mem_append_right _ List.mem_cons_self)
    have power : 10^9 = limbBase := rfl
    have whole : read limbBase (top :: (rest ++ [limb])) = read limbBase (top :: rest)*limbBase+limb := by
      rw [← List.cons_append,readAppend,List.length_singleton,pow_one]
      congr 1
      exact Nat.zero_add limb
    have reach : 1 ≤ read limbBase (top :: rest) := by
      rw [readCons]
      exact le_add_right (Nat.mul_pos (Nat.pos_of_ne_zero some_) (Nat.pow_pos (by decide)))
    have high : (read limbBase (top :: rest)*limbBase+limb)/limbBase = read limbBase (top :: rest) := by
      rw [Nat.mul_comm,Nat.mul_add_div (by decide),Nat.div_eq_of_lt small,Nat.add_zero]
    have low : (read limbBase (top :: rest)*limbBase+limb)%limbBase = limb := by
      rw [Nat.mul_comm,Nat.mul_add_mod,Nat.mod_eq_of_lt small]
    have split := @numeralSplit 10 (read limbBase (top :: rest)*limbBase+limb) (by decide) 9 (by
      exact le_add_right (Nat.le_mul_of_pos_left _ reach))
    rw [← placesMod,power,high,low] at split
    rw [whole,decimalText,split,List.map_append,List.flatMap_append,← List.append_assoc,
      ← ih fun other at_ => below other (List.mem_append_left _ at_),List.flatMap_cons,List.flatMap_nil,List.append_nil,padFixed (by decide) small]
    rfl

theorem spellLimbsText {limbs n} (spell : Spell limbs n) : spellLimbs limbs = .ok (decimalText n) := by
  obtain ⟨value,below,some_⟩ := spell.facts
  obtain ⟨low,top,rfl⟩ := (List.eq_nil_or_concat limbs).resolve_left some_
  rw [List.concat_eq_append] at *
  rw [spellLimbs,List.getLast?_concat]
  rw [List.dropLast_concat]
  have whole : read limbBase (top :: low.reverse) = n := by
    rw [← value,← readReverse,List.reverse_append]
    rfl
  by_cases zero : top = 0
  · subst zero
    have none : n = 0 := by
      by_contra more
      have large := spell.large more
      rw [← value,Nat.ofDigits_append,Nat.ofDigits_singleton,Nat.mul_zero,Nat.add_zero,List.length_append,List.length_singleton,
        Nat.add_sub_cancel] at large
      exact absurd large (Nat.not_le.mpr (Nat.ofDigits_lt_base_pow_length (by decide) fun limb at_ => below limb (List.mem_append_left _ at_)))
    have single : low = [] := by
      have short := (spell.length Nat.one_pos).mpr (by rw [none]; decide)
      rw [List.length_append,List.length_singleton] at short
      exact List.length_eq_zero_iff.mp (by omega)
    rw [single,none]
    rfl
  · rw [← whole,decimalLimbs zero low.reverse fun limb at_ => below limb (List.mem_append_left _ (List.mem_reverse.mp at_))]

/-- The rational bound is above the logarithm. -/
theorem powerBound : 2^100000 ≤ 10^30103 := by decide +kernel

theorem decimalBound {n bits} (less : n < 2^bits) : n < 10^((bits*30103+99999)/100000) := by
  refine lt_of_lt_of_le less ?_
  rw [← Nat.pow_le_pow_iff_left (show 100000 ≠ 0 by decide)]
  calc (2^bits)^100000 = (2^100000)^bits := by rw [← pow_mul,← pow_mul,Nat.mul_comm]
    _ ≤ (10^30103)^bits := Nat.pow_le_pow_left powerBound bits
    _ = 10^(bits*30103) := by rw [← pow_mul,Nat.mul_comm]
    _ ≤ 10^((bits*30103+99999)/100000*100000) := Nat.pow_le_pow_right (by decide) (by omega)
    _ = (10^((bits*30103+99999)/100000))^100000 := by rw [pow_mul]

theorem readBelow (base : 1 < radix) {ds} (below : ∀ d ∈ ds, d < radix) : read radix ds < radix^ds.length := by
  have value := @readReverse radix ds.reverse
  rw [List.reverse_reverse] at value
  rw [value,← List.length_reverse]
  exact Nat.ofDigits_lt_base_pow_length base fun d at_ => below d (List.mem_reverse.mp at_)

theorem digitBitsBound (d) : d < 2^digitBits d := by
  rw [digitBits]
  split
  · rename_i zero
    rw [zero]
    decide
  · exact Nat.lt_log2_self

/-- The first digit takes its own bits, every later one those of the radix. -/
theorem bitsBound {k bits} (power : radix = 2^k) (positive : 0 < k) (zeros : trailingZeros radix = k) (scanned : Scanned radix digits scan)
    (counted : literalBits radix scan = some bits) : denoted digits radix < 2^bits := by
  have length : bits = (scan.significantDigits-1)*k+scan.firstSignificantBits := by
    rw [literalBits,zeros,multiply] at counted
    split at counted
    · rw [Option.bind_eq_bind,Option.bind_some,add] at counted
      split at counted
      · exact (Option.some.inj counted).symm
      · cases counted
    · cases counted
  have base : 1 < radix := by
    rw [power]
    exact Nat.one_lt_two_pow positive.ne'
  have value : denoted digits radix = read radix (significant radix digits) := (readSignificant _).symm
  have below := @significantBelow radix digits
  rw [value,length,scanned.count,scanned.first]
  generalize significant radix digits = ds at below ⊢
  cases ds with
  | nil => exact Nat.two_pow_pos _
  | cons d rest =>
    have small := readBelow base fun e at_ => below e (List.mem_cons_of_mem d at_)
    rw [readCons,List.length_cons,Nat.add_sub_cancel,List.headD_cons]
    calc d*radix^rest.length+read radix rest < d*radix^rest.length+radix^rest.length := Nat.add_lt_add_left small _
      _ = (d+1)*radix^rest.length := by rw [Nat.succ_mul]
      _ ≤ 2^digitBits d*radix^rest.length := Nat.mul_le_mul_right _ (digitBitsBound d)
      _ = 2^(rest.length*k+digitBits d) := by rw [power,← pow_mul,← pow_add,Nat.mul_comm k,Nat.add_comm]

/-- What the checks before the conversion leave. -/
structure Admitted (radix maxBytes maxLimbOps : Nat) (digits : Text) (scan : Scan) (bound : Nat) : Prop where
  positive : 0 < bound
  fits : bound ≤ maxBytes
  work : scan.significantDigits*limbCount bound ≤ maxLimbOps
  decimal : denoted digits radix < 10^bound

theorem decimalBytesBound {n bits bound} (less : n < 2^bits) (found : decimalBytes bits = some bound) : 0 < bound ∧ n < 10^bound := by
  rw [decimalBytes] at found
  split at found
  · rename_i zero
    cases found
    rw [zero] at less
    exact ⟨Nat.one_pos,lt_of_lt_of_le less (by decide)⟩
  · rename_i some_
    have value : bound = (bits*30103+99999)/100000 := by
      rw [multiply] at found
      split at found
      · rw [Option.bind_eq_bind,Option.bind_some,add] at found
        split at found
        · exact (Option.some.inj found).symm
        · cases found
      · cases found
    rw [value]
    exact ⟨by omega,decimalBound less⟩

theorem admitSound {k maxBytes maxLimbOps bound} (power : radix = 2^k) (positive : 0 < k) (zeros : trailingZeros radix = k)
    (scanned : Scanned radix digits scan) (admitted : admission radix maxBytes maxLimbOps scan = .ok bound) :
    Admitted radix maxBytes maxLimbOps digits scan bound := by
  rw [admission] at admitted
  split at admitted
  · cases admitted
  · rename_i bits counted
    split at admitted
    · cases admitted
    · rename_i bytes found
      split at admitted
      · cases admitted
      · rename_i fits
        split at admitted
        · cases admitted
        · rename_i worst product
          split at admitted
          · cases admitted
          · rename_i work
            cases admitted
            obtain ⟨some_,decimal⟩ := decimalBytesBound (bitsBound power positive zeros scanned counted) found
            have value : scan.significantDigits*limbCount bound = worst := by
              rw [multiply] at product
              split at product
              · exact Option.some.inj product
              · cases product
            exact ⟨some_,Nat.not_lt.mp fits,value ▸ Nat.not_lt.mp work,decimal⟩

theorem limbCountCovers (bound) : bound ≤ limbCount bound*9 ∧ (0 < bound → 0 < limbCount bound) := by
  rw [limbCount,decimalLimbDigits]
  omega

theorem startSpells : Spell (⟨[0],false,0⟩ : Conversion).limbs 0 := rfl

theorem decimalSize (n) : size (decimalText n) = (decimalText n).length := digitsSize (decimalDigits n).1.2

theorem decimalShort {n bound} (positive : 0 < bound) (less : n < 10^bound) : (decimalText n).length ≤ bound := by
  rw [decimalText,List.length_map]
  exact (numeralLength (by decide) positive).mpr less

/-- After the checks the conversion stays within its work, and its text within the length. -/
theorem convertAdmitted {maxBytes maxLimbOps bound} (base : 1 < radix) (narrow : radix ≤ 16) (scanned : Scanned radix digits scan)
    (admitted : Admitted radix maxBytes maxLimbOps digits scan bound) : ∃ state, convert radix digits = some state ∧ state.limbOps ≤ maxLimbOps ∧
      finish maxBytes state.limbs = .ok (decimalText (denoted digits radix)) := by
  have clear : (⟨[0],false,0⟩ : Conversion).significant = true ↔ (0 : Nat) ≠ 0 := iff_of_false Bool.false_ne_true (not_not.mpr rfl)
  obtain ⟨state,run,spell,ops⟩ := convertRun base narrow _ (digitsKnown scanned.known) startSpells clear
  have value := denotedKept digits radix
  rw [← value] at spell ops
  obtain ⟨covers,some_⟩ := limbCountCovers bound
  have cap : denoted digits radix < limbBase^limbCount bound := by
    calc denoted digits radix < 10^bound := admitted.decimal
      _ ≤ 10^(limbCount bound*9) := Nat.pow_le_pow_right (by decide) covers
      _ = limbBase^limbCount bound := by rw [Nat.mul_comm,pow_mul]; rfl
  have count : passes 0 ((digits.filter (· != '_')).filterMap (toDigit radix)) = scan.significantDigits := by
    rw [filteredDigits,scanned.count]
    rfl
  have steps := ops (limbCount bound) (some_ admitted.positive) cap
  rw [count,Nat.zero_add] at steps
  refine ⟨state,run,steps.trans admitted.work,?_⟩
  have short : ¬maxBytes < size (decimalText (denoted digits radix)) := by
    rw [decimalSize,not_lt]
    exact (decimalShort admitted.positive admitted.decimal).trans admitted.fits
  rw [finish,spellLimbsText spell]
  exact if_neg short

theorem limbsBelow (base : 1 < radix) (narrow : radix ≤ 16) (known : ∀ c ∈ digits, c = '_' ∨ (toDigit radix c).isSome) {front : Text}
    (before : front <+: digits.filter (· != '_')) : ∃ state, front.foldlM (pushDigit radix) ⟨[0],false,0⟩ = some state ∧ ∀ limb ∈ state.limbs, limb < limbBase := by
  have clear : (⟨[0],false,0⟩ : Conversion).significant = true ↔ (0 : Nat) ≠ 0 := iff_of_false Bool.false_ne_true (not_not.mpr rfl)
  obtain ⟨state,run,spell,-⟩ := convertRun base narrow front (fun c at_ => digitsKnown known c (before.subset at_)) startSpells clear
  exact ⟨state,run,spell.facts.2.1⟩

/-- The text is the canonical one of what the literal denotes, or an error. -/
def Spells (lexeme : Text) (maxBytes : Nat) (result : Except BigIntTextError Text) : Prop := ∀ text, result = .ok text →
  ∃ radix digits, Literal lexeme radix digits ∧ text = decimalText (denoted digits radix) ∧ (text = ['0'] ∨ text.head? ≠ some '0') ∧ size text ≤ maxBytes

/-- The literal and its scan, as they are before the checks of the conversion. -/
structure Reaches (lexeme : Text) (radix : Nat) (digits : Text) (scan : Scan) : Prop where
  literal : ∃ literal, stripSuffix 'n' lexeme = some literal ∧ radixDigits literal = (digits,radix)
  some_ : digits ≠ []
  power : radix ≠ 10
  scanned : scanDigits radix digits = .ok scan
  ends : scan.previousWasDigit = true

structure Converts (radix : Nat) (digits : Text) (maxLimbOps bound : Nat) (result : Except BigIntTextError Text) : Prop where
  limbs : ∀ front, front <+: digits.filter (· != '_') → ∃ state, front.foldlM (pushDigit radix) ⟨[0],false,0⟩ = some state ∧
    ∀ limb ∈ state.limbs, limb < limbBase
  work : ∃ state, convert radix digits = some state ∧ state.limbOps ≤ maxLimbOps
  length : (decimalText (denoted digits radix)).length ≤ bound
  ok : result = .ok (decimalText (denoted digits radix))

theorem reachesPower {lexeme} (reaches : Reaches lexeme radix digits scan) :
    ∃ k, radix = 2^k ∧ 0 < k ∧ trailingZeros radix = k ∧ 1 < radix ∧ radix ≤ 16 := by
  obtain ⟨literal,-,split⟩ := reaches.literal
  rcases (radixSplit split).1 with rfl | rfl | rfl | rfl
  · exact ⟨4,by decide⟩
  · exact ⟨3,by decide⟩
  · exact ⟨1,by decide⟩
  · exact absurd rfl reaches.power

theorem digitsRun {literal lexeme} (suffix_ : stripSuffix 'n' lexeme = some literal) (split : radixDigits literal = (digits,radix))
    (maxBytes maxLimbOps) : canonicalBigintText lexeme maxBytes maxLimbOps = canonicalDigits digits radix maxBytes maxLimbOps := by
  rw [canonicalBigintText,suffix_]
  dsimp only
  rw [split]

theorem scannedRun (some_ : digits ≠ []) (found : scanDigits radix digits = .ok scan) (ends : scan.previousWasDigit = true) (maxBytes maxLimbOps) :
    canonicalDigits digits radix maxBytes maxLimbOps = convertedText digits radix maxBytes maxLimbOps scan := by
  have more : ¬(!scan.previousWasDigit) = true := by
    rw [ends]
    decide
  rw [canonicalDigits,if_neg fun none_ => some_ (List.isEmpty_iff.mp none_),found]
  exact if_neg more

/-- A literal that passes the checks is converted. -/
theorem admittedConverts {lexeme maxBytes maxLimbOps bound} (reaches : Reaches lexeme radix digits scan)
    (admitted : admission radix maxBytes maxLimbOps scan = .ok bound) : ∃ result, canonicalBigintText lexeme maxBytes maxLimbOps = some result ∧
      Converts radix digits maxLimbOps bound result ∧ bound ≤ maxBytes := by
  obtain ⟨k,power,positive,zeros,base,narrow⟩ := reachesPower reaches
  have scanned := scanDigitsSound reaches.scanned
  have sound := admitSound power positive zeros scanned admitted
  obtain ⟨state,run,work,text⟩ := convertAdmitted base narrow scanned sound
  refine ⟨_,?_,⟨fun front before => limbsBelow base narrow scanned.known before,⟨state,run,work⟩,decimalShort sound.positive sound.decimal,text⟩,sound.fits⟩
  obtain ⟨literal,suffix_,split⟩ := reaches.literal
  rw [digitsRun suffix_ split,scannedRun reaches.some_ reaches.scanned reaches.ends,convertedText,if_neg reaches.power,admitted]
  rw [run,Option.map_some]

theorem spellsError (lexeme maxBytes error) : Spells lexeme maxBytes (.error error) := fun _ same => by cases same

theorem decimalSpells {lexeme maxBytes} (literal : Literal lexeme radix digits) (fits : size (decimalText (denoted digits radix)) ≤ maxBytes) :
    Spells lexeme maxBytes (.ok (decimalText (denoted digits radix))) := by
  intro text same
  cases same
  exact ⟨radix,digits,literal,rfl,decimalCanonical _,fits⟩

theorem decimalFits (scanned : Scanned 10 digits scan) : size (decimalText (denoted digits 10)) = max scan.significantDigits 1 := by
  rw [decimalSize,decimalText,List.length_map,significantNumeral (by decide),scanned.count]
  split
  · rename_i empty
    rw [empty]
    rfl
  · rename_i some_
    exact (Nat.max_eq_left (List.length_pos_of_ne_nil some_)).symm

theorem textSpells (lexeme maxBytes maxLimbOps) : ∃ result, canonicalBigintText lexeme maxBytes maxLimbOps = some result ∧
    Spells lexeme maxBytes result := by
  have error := spellsError lexeme maxBytes
  cases suffix_ : stripSuffix 'n' lexeme with
  | none =>
    rw [canonicalBigintText,suffix_]
    exact ⟨_,rfl,error _⟩
  | some literal =>
    obtain ⟨digits,radix,split⟩ : ∃ digits radix, radixDigits literal = (digits,radix) := ⟨_,_,rfl⟩
    rw [digitsRun suffix_ split]
    by_cases empty : digits = []
    · rw [canonicalDigits,empty]
      exact ⟨_,rfl,error _⟩
    cases found : scanDigits radix digits with
    | error error_ =>
      rw [canonicalDigits,if_neg fun none_ => empty (List.isEmpty_iff.mp none_),found]
      exact ⟨_,rfl,error _⟩
    | ok scan =>
      by_cases open_ : (!scan.previousWasDigit) = true
      · rw [canonicalDigits,if_neg fun none_ => empty (List.isEmpty_iff.mp none_),found]
        dsimp only
        rw [if_pos open_]
        exact ⟨_,rfl,error _⟩
      have ends : scan.previousWasDigit = true := by rwa [Bool.not_eq_true',Bool.not_eq_false] at open_
      have scanned := scanDigitsSound found
      have literal_ := literalScanned suffix_ split empty scanned ends
      by_cases decimal : radix = 10
      · subst decimal
        rw [scannedRun empty found ends,convertedText,if_pos rfl]
        split
        · exact ⟨_,rfl,error _⟩
        · rename_i fits
          refine ⟨_,rfl,?_⟩
          rw [decimalOutputText scanned.known]
          refine decimalSpells literal_ ?_
          rw [decimalFits scanned]
          exact Nat.not_lt.mp fits
      · cases admitted : admission radix maxBytes maxLimbOps scan with
        | error error_ =>
          rw [scannedRun empty found ends,convertedText,if_neg decimal,admitted]
          exact ⟨_,rfl,error _⟩
        | ok bound =>
          have reaches : Reaches lexeme radix digits scan := ⟨⟨literal,suffix_,split⟩,empty,decimal,found,ends⟩
          obtain ⟨result,run,converts,fits⟩ := admittedConverts reaches admitted
          rw [digitsRun suffix_ split] at run
          refine ⟨result,run,?_⟩
          rw [converts.ok]
          refine decimalSpells literal_ ?_
          rw [decimalSize]
          exact converts.length.trans fits

/-- Canonical decimal text or an error, and past the checks never an error. -/
theorem canonicalText (lexeme : Text) (maxBytes maxLimbOps : Nat) : ∃ result, canonicalBigintText lexeme maxBytes maxLimbOps = some result ∧
    Spells lexeme maxBytes result ∧ ∀ radix digits scan bound, Reaches lexeme radix digits scan → admission radix maxBytes maxLimbOps scan = .ok bound →
      Converts radix digits maxLimbOps bound result := by
  obtain ⟨result,run,spells⟩ := textSpells lexeme maxBytes maxLimbOps
  refine ⟨result,run,spells,fun radix digits scan bound reaches admitted => ?_⟩
  obtain ⟨result',run',converts,-⟩ := admittedConverts reaches admitted
  obtain rfl := Option.some.inj (run.symm.trans run')
  exact converts

end Bamts.BigIntLiteral
