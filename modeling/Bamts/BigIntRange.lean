import Bamts.BigIntDivide
import Mathlib.Data.UInt

/-! Long division in machine words: the same loops, ended by the first number that leaves its word, by an
estimate above its bound, or by one that is lowered too often. -/
set_option linter.all false
namespace Bamts.BigInt
open Limbs

/-- How large an estimate may be, and how often it may be lowered. -/
structure Allowance where
  qhat : Nat
  turns : Nat

def asU32 (z : Int) : Option UInt32 := if 0 ≤ z ∧ z < 2^32 then some (UInt32.ofNat z.toNat) else none
def asU64 (n : Nat) : Option Nat := if n < 2^64 then some n else none
def asI64 (z : Int) : Option Int := if -2^63 ≤ z ∧ z < 2^63 then some z else none

-- `qhat -= 1`
def lowered (qhat : Nat) : Option Nat := if qhat = 0 then none else some (qhat-1)

def contradicted (next low qhat rhat : Nat) : Option Bool :=
  if qhat = 2^32 then some true
  else do
    let product ← asU64 (qhat*next)
    let behind ← asU64 (rhat*2^32+low)
    some (behind < product)

def adjustWithin (most top next low : Nat) (turns qhat rhat : Nat) : Option Nat :=
  if qhat ≤ most then do
    if ← contradicted next low qhat rhat then
      match turns with
      | 0 => none
      | turns+1 =>
        let qhat ← lowered qhat
        let rhat ← asU64 (rhat+top)
        if 2^32 ≤ rhat then some qhat else adjustWithin most top next low turns qhat rhat
    else some qhat
  else none

def mulSubWithin (qhat : Nat) : List UInt32 → List UInt32 → Nat → Nat → Option (List UInt32 × Nat × Nat)
  | u :: us, v :: vs, borrow, carry => do
    let product ← asU64 (qhat*v.toNat+carry)
    let sub ← asI64 ((u.toNat : Int)-borrow-(product%2^32 : Nat))
    let limb ← if sub < 0 then asU32 (sub+2^32) else asU32 sub
    let (rest,left) ← mulSubWithin qhat us vs (if sub < 0 then 1 else 0) (product/2^32)
    some (limb :: rest,left)
  | us, _, borrow, carry => some (us,borrow,carry)

def divStepWithin (allowed : Allowance) (vn window : List UInt32) : Option (UInt32 × List UInt32) := do
  let n := vn.length
  let high ← asU64 (limbOf window n*2^32+limbOf window (n-1))
  let d0 := limbOf vn (n-1)
  if d0 = 0 then none
  let qhat ← adjustWithin allowed.qhat d0 (limbOf vn (n-2)) (limbOf window (n-2)) allowed.turns (high/d0) (high%d0)
  let (low,borrow,carried) ← mulSubWithin qhat (window.take n) vn 0 0
  let finalSub ← asI64 ((limbOf window n : Int)-borrow-carried)
  if finalSub < 0 then
    let (sum,back) := carry (fun p c => sumLimbs p+c) 0 (padded low vn)
    if finalSub+back < 0 then none
    let digit ← asU32 ((← lowered qhat) : Nat)
    some (digit,sum ++ [UInt32.ofNat ((finalSub+2^32)%2^32).toNat+UInt32.ofNat back])
  else
    let digit ← asU32 qhat
    let last ← asU32 finalSub
    some (digit,low ++ [last])

def divLoopWithin (allowed : Allowance) (vn : List UInt32) : List UInt32 → List UInt32 → Option (List UInt32 × List UInt32)
  | [], rest => some ([],rest)
  | limb :: un, rest => do
    let (q,r) ← divLoopWithin allowed vn un rest
    let (digit,window) ← divStepWithin allowed vn (limb :: r)
    some (digit :: q,window.take vn.length)

def divSmallWithin (d : Nat) : List UInt32 → Option (List UInt32 × Nat)
  | [] => some ([],0)
  | limb :: rest => do
    let (q,rem) ← divSmallWithin d rest
    let cur ← asU64 (rem*2^32+limb.toNat)
    let digit ← asU32 (cur/d : Nat)
    some (digit :: q,cur%d)

def magDivmodWithin (allowed : Allowance) (u v : List UInt32) : Option (List UInt32 × List UInt32) :=
  if magCmp u v = .lt then some ([],u)
  else if v.length = 1 then do
    let (q,rem) ← divSmallWithin (limbOf v 0) u
    let last ← asU32 rem
    some (trim q,trim [last])
  else do
    let shift := leadingZeros (v.getLast?.getD 0)
    let vn := if shift = 0 then v else (shlRow shift 0 v).1
    let un := if shift = 0 then u ++ [0] else (shlRow shift 0 u).1 ++ [UInt32.ofNat (shlRow shift 0 u).2]
    let m := u.length-v.length
    let (q,r) ← divLoopWithin allowed vn (un.take (m+1)) (un.drop (m+1))
    some (trim q,trim (if shift = 0 then r else shrRow shift r))

theorem asU32Fits {n : Nat} (fits : n < 2^32) : asU32 n = some (UInt32.ofNat n) := by
  rw [asU32,if_pos (by omega),Int.toNat_natCast]

theorem asU64Fits {n} (fits : n < 2^64) : asU64 n = some n := if_pos fits

theorem asI64Fits {z} (least : -2^63 ≤ z) (most : z < 2^63) : asI64 z = some z := if_pos ⟨least,most⟩

theorem contradictedIs {next low qhat rhat} (next_ : next < 2^32) (low_ : low < 2^32) (few : qhat ≤ 2^32+1) (rhat_ : rhat < 2^32) :
    contradicted next low qhat rhat = some (decide (qhat = 2^32 ∨ rhat*2^32+low < qhat*next)) := by
  have product : qhat*next < 2^64 := by
    calc qhat*next ≤ (2^32+1)*(2^32-1) := Nat.mul_le_mul few (by omega)
      _ < 2^64 := by decide
  rw [contradicted]
  split
  · rename_i full
    rw [decide_eq_true (.inl full)]
  · rename_i other
    rw [asU64Fits product,asU64Fits (show rhat*2^32+low < 2^64 by omega)]
    exact congrArg some (decide_eq_decide.mpr (or_iff_right other).symm)

/-- The top limb of the divisor is half its base, so two turns fill the remainder's word. -/
theorem adjustWithinIs {top next low turns qhat rhat} (top_ : top < 2^32) (next_ : next < 2^32) (low_ : low < 2^32)
    (few : qhat ≤ 2^32+1) (rhat_ : rhat < 2^32) (filled : 2^32 ≤ rhat+turns*top) :
    adjustWithin (2^32+1) top next low turns qhat rhat = some (adjust top next low qhat rhat) := by
  induction turns generalizing qhat rhat with
  | zero => omega
  | succ turns ih =>
    rw [adjustWithin,if_pos few,contradictedIs next_ low_ few rhat_,adjust]
    by_cases wrong : qhat = 2^32 ∨ rhat*2^32+low < qhat*next
    · have some_ : qhat ≠ 0 := by
        rintro rfl
        rcases wrong with full | contradicts
        · omega
        · rw [Nat.zero_mul] at contradicts
          omega
      have stop : (2^32 ≤ rhat+top ∨ top = 0) ↔ 2^32 ≤ rhat+top := by
        refine or_iff_left fun none_ => ?_
        rw [none_,Nat.mul_zero] at filled
        omega
      simp only [wrong,decide_true,lowered,if_neg some_,asU64Fits (show rhat+top < 2^64 by omega),stop,Option.bind_eq_bind,
        Option.bind_some,if_true]
      split
      · rfl
      · refine ih (by omega) (by omega) ?_
        rw [Nat.succ_mul] at filled
        omega
    · rw [decide_eq_false wrong,if_neg wrong]
      rfl

theorem adjustBelow {top next low H qhat rhat} (real : 0 < top) (split : qhat*top+rhat = H) (H_ : H < top*2^32+2^32)
    (most : adjust top next low qhat rhat ≤ 2^32) : adjust top next low qhat rhat < 2^32 := by
  refine Nat.lt_of_le_of_ne most ?_
  clear most
  induction qhat, rhat using adjust.induct top next low with
  | case1 qhat rhat wrong stop =>
    intro full
    rw [adjust,if_pos wrong,if_pos stop] at full
    have one : qhat = 2^32+1 := by omega
    rw [one,Nat.succ_mul,Nat.mul_comm] at split
    omega
  | case2 qhat rhat wrong on ih =>
    rw [adjust,if_pos wrong,if_neg on]
    refine ih ?_
    have some_ : qhat ≠ 0 := by
      rintro rfl
      rcases wrong with full | contradicts
      · omega
      · rw [Nat.zero_mul] at contradicts
        omega
    obtain ⟨less,rfl⟩ := Nat.exists_eq_succ_of_ne_zero some_
    rw [← split,Nat.succ_sub_one,Nat.succ_mul]
    omega
  | case3 qhat rhat right =>
    rw [adjust,if_neg right]
    exact fun full => right (.inl full)

theorem mulSubWithinIs {qhat borrow carried} (few : qhat < 2^32) {us vs} (small : borrow ≤ 1) (carried_ : carried < 2^32) :
    mulSubWithin qhat us vs borrow carried = some (mulSubLoop qhat us vs borrow carried) ∧
    ((mulSubLoop qhat us vs borrow carried).2.1 ≤ 1 ∧ (mulSubLoop qhat us vs borrow carried).2.2 < 2^32) := by
  induction us generalizing vs borrow carried with
  | nil => exact ⟨by rw [mulSubWithin,mulSubLoop] <;> (intros; contradiction),by rw [mulSubLoop] <;> first | exact ⟨small,carried_⟩ | (intros; contradiction)⟩
  | cons u us ih =>
    cases vs with
    | nil => exact ⟨by rw [mulSubWithin,mulSubLoop] <;> (intros; contradiction),by rw [mulSubLoop] <;> first | exact ⟨small,carried_⟩ | (intros; contradiction)⟩
    | cons v vs =>
      have u_ := limbLt u
      have v_ := limbLt v
      have product : qhat*v.toNat+carried < 2^32*2^32 := by
        calc qhat*v.toNat+carried ≤ (2^32-1)*(2^32-1)+(2^32-1) := Nat.add_le_add (Nat.mul_le_mul (by omega) (by omega)) (by omega)
          _ < 2^32*2^32 := by decide
      have low := Nat.mod_lt (qhat*v.toNat+carried) (show 0 < 2^32 by decide)
      have high := Nat.div_lt_of_lt_mul product
      rw [mulSubTurn,mulSubWithin,asU64Fits (by omega)]
      dsimp only [Option.bind_eq_bind,Option.bind_some]
      generalize (qhat*v.toNat+carried)%2^32 = part at low ⊢
      rw [asI64Fits (by omega) (by omega)]
      dsimp only [Option.bind_some]
      split
      · rename_i under
        obtain ⟨runs,left⟩ := @ih 1 _ vs (Nat.le_refl 1) high
        obtain ⟨limb,limb_⟩ : ∃ limb : Nat, (u.toNat : Int)-borrow-part+2^32 = limb := ⟨((u.toNat : Int)-borrow-part+2^32).toNat,by omega⟩
        rw [limb_,asU32Fits (by omega),runs,Int.toNat_natCast]
        exact ⟨rfl,left⟩
      · rename_i enough
        obtain ⟨runs,left⟩ := @ih 0 _ vs (Nat.zero_le 1) high
        obtain ⟨limb,limb_⟩ : ∃ limb : Nat, (u.toNat : Int)-borrow-part = limb := ⟨((u.toNat : Int)-borrow-part).toNat,by omega⟩
        rw [limb_,asU32Fits (by omega),runs,Int.toNat_natCast]
        exact ⟨rfl,left⟩

theorem estimateWithin {top next u2 u1 low} (limb : u2 ≤ top) (large : 2^31 ≤ top) (top_ : top < 2^32) (next_ : next < 2^32) (low_ : low < 2^32)
    (u1_ : u1 < 2^32) (most : estimate top next u2 u1 low ≤ 2^32) :
    adjustWithin (2^32+1) top next low 2 ((u2*2^32+u1)/top) ((u2*2^32+u1)%top) = some (estimate top next u2 u1 low) ∧
    estimate top next u2 u1 low < 2^32 := by
  have real : 0 < top := by omega
  have few := firstWithin limb u1_ large
  have rhat_ := Nat.mod_lt (u2*2^32+u1) real
  have parts := Nat.div_add_mod (u2*2^32+u1) top
  have above : u2*2^32+u1 < top*2^32+2^32 := by
    omega
  rw [Nat.mul_comm] at parts
  refine ⟨adjustWithinIs top_ next_ low_ few (by omega) ?_,adjustBelow real parts above most⟩
  omega

/-- The largest first estimate, lowered twice. -/
def twice : Allowance := ⟨2^32+1,2⟩

theorem divStepWithinRow {allowed vn window row k high qhat borrow carried finalSub}
    (size : vn.length = k+2) (high_ : asU64 (limbOf window (k+2)*2^32+limbOf window (k+1)) = some high) (real : limbOf vn (k+1) ≠ 0)
    (adjusts : adjustWithin allowed.qhat (limbOf vn (k+1)) (limbOf vn k) (limbOf window k) allowed.turns
      (high/limbOf vn (k+1)) (high%limbOf vn (k+1)) = some qhat)
    (subtracts : mulSubWithin qhat (window.take (k+2)) vn 0 0 = some (row,borrow,carried))
    (finalSub_ : asI64 ((limbOf window (k+2) : Int)-borrow-carried) = some finalSub) :
    divStepWithin allowed vn window = if finalSub < 0 then
      if finalSub+(carry (fun p c => sumLimbs p+c) 0 (padded row vn)).2 < 0 then none
      else (lowered qhat).bind fun digit => (asU32 (digit : Nat)).bind fun digit =>
        some (digit,(carry (fun p c => sumLimbs p+c) 0 (padded row vn)).1 ++
          [UInt32.ofNat ((finalSub+2^32)%2^32).toNat+UInt32.ofNat (carry (fun p c => sumLimbs p+c) 0 (padded row vn)).2])
    else (asU32 qhat).bind fun digit => (asU32 finalSub).bind fun last => some (digit,row ++ [last]) := by
  have less : k+2-1 = k+1 := rfl
  simp only [divStepWithin,size,less,Nat.add_sub_cancel,high_,adjusts,subtracts,finalSub_,if_neg real,Option.bind_eq_bind,Option.bind_some]
  split
  · split <;> rfl
  · rfl

theorem divStepWithinIs {vn window k} (ready : Ready vn window k) :
    divStepWithin twice vn window = some (divStep vn window) := by
  have size : vn.length = k+2 := ready.divisor
  have top := ready.large
  have u2_ := limbOfLt window (k+2)
  have u1_ := limbOfLt window (k+1)
  have P_ : 0 < (2^32)^k := Nat.pow_pos (by decide)
  have limb := topWithin (topTwo ready.divisor) (topThree ready.wide) (limbOfLt vn k) (Nat.mod_lt _ P_) ready.small
  have most : divEstimate vn window ≤ 2^32 := Nat.le_trans ready.estimated.2 ready.fits
  have same : divEstimate vn window = estimate (limbOf vn (k+1)) (limbOf vn k) (limbOf window (k+2)) (limbOf window (k+1)) (limbOf window k) := by
    rw [divEstimate,size]
    rfl
  rw [same] at most
  obtain ⟨adjusts,below⟩ := estimateWithin limb top (limbOfLt vn (k+1)) (limbOfLt vn k) (limbOfLt window k) u1_ most
  rw [← same] at adjusts below
  obtain ⟨runs,borrow_,carried_⟩ := @mulSubWithinIs _ 0 0 below (window.take (k+2)) vn (Nat.zero_le 1) (by decide)
  rcases sub : mulSubLoop (divEstimate vn window) (window.take (k+2)) vn 0 0 with ⟨row,borrow,carried⟩
  rw [sub] at runs borrow_ carried_
  dsimp only at borrow_ carried_
  have wide := asU64Fits (show limbOf window (k+2)*2^32+limbOf window (k+1) < 2^64 by omega)
  have finalSub := @asI64Fits ((limbOf window (k+2) : Int)-borrow-carried) (by omega) (by omega)
  have step := divStepRow (size.symm ▸ sub)
  rw [size] at step
  rw [step,divStepWithinRow size wide (by omega) adjusts runs finalSub]
  split
  · rename_i under
    obtain ⟨last,high,one,-,-⟩ := ready.under sub under
    have some_ : divEstimate vn window ≠ 0 := by
      rw [high]
      exact Nat.succ_ne_zero _
    rw [last,one,if_neg (by decide),lowered,if_neg some_,Option.bind_some,asU32Fits (Nat.lt_of_le_of_lt (Nat.sub_le _ _) below)]
    rfl
  · rename_i enough
    obtain ⟨-,-,last,-⟩ := ready.over_ sub enough
    obtain ⟨left,left_⟩ := Int.eq_ofNat_of_zero_le (Int.not_lt.mp enough)
    rw [left_,Int.toNat_natCast] at last
    rw [left_,asU32Fits below,asU32Fits last,Int.toNat_natCast]
    rfl

theorem divLoopWithinStep {allowed vn un rest q r window limb digit}
    (before : divLoopWithin allowed vn un rest = some (q,r)) (step : divStepWithin allowed vn (limb :: r) = some (digit,window)) :
    divLoopWithin allowed vn (limb :: un) rest = some (digit :: q,window.take vn.length) := by
  rw [divLoopWithin,before,Option.bind_eq_bind,Option.bind_some]
  dsimp only
  rw [step,Option.bind_eq_bind,Option.bind_some]

theorem divLoopWithinIs {vn rest k} (divisor : vn.length = k+2) (large : 2^31 ≤ limbOf vn (k+1)) (long : rest.length = k+2)
    (below : value rest < value vn) (un) : divLoopWithin twice vn un rest = some (divLoop vn un rest) := by
  induction un with
  | nil => rfl
  | cons limb un ih =>
    obtain ⟨-,less,same⟩ := divLoopValue divisor large long below un
    have small := limbLt limb
    have window_ : value (limb :: (divLoop vn un rest).2) = limb.toNat+2^32*value (divLoop vn un rest).2 := valueCons _ _
    have step := divStepWithinIs (show Ready vn (limb :: (divLoop vn un rest).2) k from
      ⟨divisor,by rw [List.length_cons,same],large,by omega⟩)
    exact divLoopWithinStep ih step

theorem divSmallWithinStep {d rem cur limb digit rest q} (before : divSmallWithin d rest = some (q,rem))
    (cur_ : asU64 (rem*2^32+limb.toNat) = some cur) (digit_ : asU32 (cur/d : Nat) = some digit) :
    divSmallWithin d (limb :: rest) = some (digit :: q,cur%d) := by
  rw [divSmallWithin,before,Option.bind_eq_bind,Option.bind_some]
  dsimp only
  rw [cur_,Option.bind_eq_bind,Option.bind_some,digit_,Option.bind_eq_bind,Option.bind_some]

theorem divSmallWithinIs {d} (real : 0 < d) (d_ : d < 2^32) (limbs) : divSmallWithin d limbs = some (divSmall d limbs) := by
  induction limbs with
  | nil => rfl
  | cons limb rest ih =>
    have less := (divSmallValue real rest).2
    have small := limbLt limb
    have wide : (divSmall d rest).2*2^32+limb.toNat < 2^64 := by omega
    have fits : ((divSmall d rest).2*2^32+limb.toNat)/d < 2^32 := Nat.div_lt_of_lt_mul (by omega)
    rw [divSmallWithinStep ih (asU64Fits wide) (asU32Fits fits),divSmall]

theorem smallWithin {allowed u v q rem last} (more : magCmp u v ≠ .lt) (one : v.length = 1)
    (divided : divSmallWithin (limbOf v 0) u = some (q,rem)) (last_ : asU32 rem = some last) :
    magDivmodWithin allowed u v = some (trim q,trim [last]) := by
  rw [magDivmodWithin,if_neg more,if_pos one,divided,Option.bind_eq_bind,Option.bind_some]
  dsimp only
  rw [last_,Option.bind_eq_bind,Option.bind_some]

theorem longWithin {allowed u v q r} (more : magCmp u v ≠ .lt) (many : v.length ≠ 1)
    (divided : divLoopWithin allowed (normalDivisor (leadingZeros (v.getLast?.getD 0)) v)
      ((normalDividend (leadingZeros (v.getLast?.getD 0)) u).take (u.length-v.length+1))
      ((normalDividend (leadingZeros (v.getLast?.getD 0)) u).drop (u.length-v.length+1)) = some (q,r)) :
    magDivmodWithin allowed u v =
      some (trim q,trim (if leadingZeros (v.getLast?.getD 0) = 0 then r else shrRow (leadingZeros (v.getLast?.getD 0)) r)) := by
  rw [normalDivisor,normalDividend] at divided
  simp only [magDivmodWithin,if_neg more,if_neg many,divided,Option.bind_eq_bind,Option.bind_some]

theorem magDivmodWithinIs {u v} (divisor : Trimmed v) (real : v ≠ []) : magDivmodWithin twice u v = some (magDivmod u v) := by
  by_cases less : magCmp u v = .lt
  · rw [magDivmodWithin,magDivmod,if_pos less,if_pos less]
  by_cases one : v.length = 1
  · have whole := topLimb (show v.length = 0+1 from one)
    rw [Nat.pow_zero,Nat.mul_one,Nat.mod_one,Nat.add_zero] at whole
    have positive : 0 < limbOf v 0 := by
      rw [← whole]
      exact Nat.pos_of_ne_zero fun zero => real ((trimmedZero divisor).mp zero)
    have small := limbOfLt v 0
    have last := Nat.lt_trans (divSmallValue positive u).2 small
    rw [smallWithin less one (divSmallWithinIs positive small u) (asU32Fits last),magDivmod,if_neg less,if_pos one]
  · obtain ⟨k,normal⟩ := normalized divisor real (cmpMore less) one
    rw [longWithin less one (divLoopWithinIs normal.divisor normal.large normal.long normal.below _),magDivmod,if_neg less,if_neg one]
    rfl

/-- What the division promises of one dividend and divisor. -/
def Divides (allowed : Allowance) (u v : List UInt32) : Prop :=
  ∃ q r, magDivmodWithin allowed u v = some (q,r) ∧ magDivmod u v = (q,r) ∧ Trimmed q ∧ (Trimmed u → Trimmed r) ∧
    value u = value q*value v+value r ∧ value r < value v

theorem magDivmodTrimmed (u v) : Trimmed (magDivmod u v).1 ∧ (Trimmed u → Trimmed (magDivmod u v).2) := by
  rw [magDivmod]
  split
  · exact ⟨trimmedNil,id⟩
  · split
    · exact ⟨trimTrimmed _,fun _ => trimTrimmed _⟩
    · exact ⟨trimTrimmed _,fun _ => trimTrimmed _⟩

/-- Long division is exact, and nothing on the way leaves its word: an estimate is at most `2^32+1`, is
lowered at most twice, and one add-back is enough. -/
theorem divisionInRange (u v : List UInt32) (divisor : Trimmed v) (real : v ≠ []) : Divides twice u v := by
  have positive : 0 < value v := Nat.pos_of_ne_zero fun zero => real ((trimmedZero divisor).mp zero)
  obtain ⟨quotient,remainder⟩ := @magDivmodValue u v divisor real
  obtain ⟨short,short'⟩ := magDivmodTrimmed u v
  have runs := @magDivmodWithinIs u v divisor real
  generalize divided : magDivmod u v = result at quotient remainder short short' runs
  obtain ⟨q,r⟩ := result
  dsimp only at quotient remainder short short'
  refine ⟨q,r,runs,divided,short,short',?_,?_⟩
  · rw [quotient,remainder,Nat.mul_comm,Nat.div_add_mod]
  · rw [remainder]
    exact Nat.mod_lt _ positive

theorem halfBaseInRange : Divides twice [0,2^31,2^31] [2^32-1,2^31] := divisionInRange _ _ (by decide) (by decide)

/-- The window of the second digit starts with the divisor's top limb twice, and its first estimate is `2^32+1`. -/
theorem estimateOver : ¬∀ u v : List UInt32, Trimmed v → v ≠ [] → Divides ⟨2^32,2⟩ u v := by
  intro all
  obtain ⟨q,r,runs,-⟩ := all [0,2^31,2^31] [2^32-1,2^31] (by decide) (by decide)
  have ends : magDivmodWithin ⟨2^32,2⟩ [0,2^31,2^31] [2^32-1,2^31] = none := by decide
  rw [ends] at runs
  cases runs

end Bamts.BigInt
