import Bamts.BigIntLimbs

/-! Long division of magnitudes: a digit of the quotient is estimated from the top limbs, lowered while
the next limb contradicts it, and corrected once more where the subtraction underflows. -/
set_option linter.all false
namespace Bamts.BigInt
open Limbs

def adjust (top next low qhat rhat : Nat) : Nat :=
  if qhat = 2^32 ∨ rhat*2^32+low < qhat*next then
    if 2^32 ≤ rhat+top ∨ top = 0 then qhat-1 else adjust top next low (qhat-1) (rhat+top)
  else qhat
termination_by 2^32-rhat

def estimate (top next u2 u1 u0 : Nat) : Nat := adjust top next u0 ((u2*2^32+u1)/top) ((u2*2^32+u1)%top)

def mulSubLoop (qhat : Nat) : List UInt32 → List UInt32 → Nat → Nat → List UInt32 × Nat × Nat
  | u :: us, v :: vs, borrow, carry =>
    let product := qhat*v.toNat+carry
    let sub : Int := (u.toNat : Int)-borrow-(product%2^32 : Nat)
    if sub < 0 then
      (UInt32.ofNat (sub+2^32).toNat :: (mulSubLoop qhat us vs 1 (product/2^32)).1,(mulSubLoop qhat us vs 1 (product/2^32)).2)
    else (UInt32.ofNat sub.toNat :: (mulSubLoop qhat us vs 0 (product/2^32)).1,(mulSubLoop qhat us vs 0 (product/2^32)).2)
  | us, _, borrow, carry => (us,borrow,carry)

def limbOf (limbs : List UInt32) (index : Nat) : Nat := (limbs[index]?.getD 0).toNat

def divStep (vn window : List UInt32) : UInt32 × List UInt32 :=
  let n := vn.length
  let qhat := estimate (limbOf vn (n-1)) (limbOf vn (n-2)) (limbOf window n) (limbOf window (n-1)) (limbOf window (n-2))
  let (low,borrow,carried) := mulSubLoop qhat (window.take n) vn 0 0
  let finalSub : Int := (limbOf window n : Int)-borrow-carried
  if finalSub < 0 then
    let (sum,back) := carry (fun p c => sumLimbs p+c) 0 (padded low vn)
    (UInt32.ofNat (qhat-1),sum ++ [UInt32.ofNat ((finalSub+2^32)%2^32).toNat+UInt32.ofNat back])
  else (UInt32.ofNat qhat,low ++ [UInt32.ofNat finalSub.toNat])

def divLoop (vn : List UInt32) : List UInt32 → List UInt32 → List UInt32 × List UInt32
  | [], rest => ([],rest)
  | limb :: un, rest =>
    let (q,r) := divLoop vn un rest
    let (digit,window) := divStep vn (limb :: r)
    (digit :: q,window.take vn.length)

def leadingZeros (limb : UInt32) : Nat := if limb = 0 then 32 else 31-Nat.log2 limb.toNat

def magDivmod (u v : List UInt32) : List UInt32 × List UInt32 :=
  if magCmp u v = .lt then ([],u)
  else if v.length = 1 then
    let (q,rem) := divSmall (limbOf v 0) u
    (trim q,trim [UInt32.ofNat rem])
  else
    let shift := leadingZeros (v.getLast?.getD 0)
    let vn := if shift = 0 then v else (shlRow shift 0 v).1
    let un := if shift = 0 then u ++ [0] else (shlRow shift 0 u).1 ++ [UInt32.ofNat (shlRow shift 0 u).2]
    let m := u.length-v.length
    let (q,r) := divLoop vn (un.take (m+1)) (un.drop (m+1))
    (trim q,trim (if shift = 0 then r else shrRow shift r))

section Estimate
variable {top next low v w P V W H : Nat}

theorem tooLarge {qhat rhat} (divisor : V = (top*2^32+next)*P+v) (dividend : W = (H*2^32+low)*P+w) (w_ : w < P)
    (split : qhat*top+rhat = H) (contradicts : rhat*2^32+low < qhat*next) : W < qhat*V := by
  calc W < (H*2^32+low+1)*P := by
        rw [dividend,Nat.succ_mul]
        omega
    _ ≤ (qhat*(top*2^32+next))*P := by
        refine Nat.mul_le_mul_right _ ?_
        have spread : qhat*(top*2^32+next) = qhat*top*2^32+qhat*next := by ring
        omega
    _ ≤ qhat*V := by
        rw [divisor,Nat.mul_assoc]
        exact Nat.mul_le_mul_left _ (Nat.le_add_right _ _)

theorem restLeft {qhat rhat} (divisor : V = (top*2^32+next)*P+v) (dividend : W = (H*2^32+low)*P+w) (next_ : next < 2^32) (v_ : v < P)
    (split : qhat*top+rhat = H) (left : 2^32 ≤ rhat) (few : qhat ≤ 2^32) : qhat*V ≤ W := by
  have behind : next*P+v ≤ 2^32*P := by
    calc next*P+v ≤ (next+1)*P := by rw [Nat.succ_mul]; omega
      _ ≤ 2^32*P := Nat.mul_le_mul_right _ next_
  calc qhat*V = qhat*top*2^32*P+qhat*(next*P+v) := by rw [divisor]; ring
    _ ≤ qhat*top*2^32*P+2^32*(2^32*P) := Nat.add_le_add_left (Nat.mul_le_mul few behind) _
    _ = (qhat*top+2^32)*2^32*P := by ring
    _ ≤ H*2^32*P := by
        refine Nat.mul_le_mul_right _ (Nat.mul_le_mul_right _ ?_)
        rw [← split]
        exact Nat.add_le_add_left left _
    _ ≤ W := by
        rw [dividend,Nat.add_mul]
        omega

theorem oneOver {qhat rhat} (divisor : V = (top*2^32+next)*P+v) (dividend : W = (H*2^32+low)*P+w) (v_ : v < P) (large : 2^31 ≤ top)
    (split : qhat*top+rhat = H) (agrees : qhat*next ≤ rhat*2^32+low) (few : qhat ≤ 2^32+1) : qhat*V ≤ W+V := by
  have rest : qhat*v ≤ V := by
    calc qhat*v ≤ (2^32+1)*P := Nat.mul_le_mul few (Nat.le_of_lt v_)
      _ ≤ (top*2^32+next)*P := Nat.mul_le_mul_right _ (by omega)
      _ ≤ V := by
          rw [divisor]
          exact Nat.le_add_right _ _
  calc qhat*V = (qhat*top*2^32+qhat*next)*P+qhat*v := by rw [divisor]; ring
    _ ≤ (qhat*top*2^32+(rhat*2^32+low))*P+V := Nat.add_le_add (Nat.mul_le_mul_right _ (Nat.add_le_add_left agrees _)) rest
    _ = (H*2^32+low)*P+V := by
        rw [← split]
        ring
    _ ≤ W+V := by
        omega

theorem adjustBounds (divisor : V = (top*2^32+next)*P+v) (dividend : W = (H*2^32+low)*P+w) (next_ : next < 2^32) (v_ : v < P) (w_ : w < P)
    (large : 2^31 ≤ top) (digit : W < 2^32*V) {qhat rhat} (split : qhat*top+rhat = H) (enough : W/V ≤ qhat) (few : qhat ≤ 2^32+1) :
    W/V ≤ adjust top next low qhat rhat ∧ adjust top next low qhat rhat ≤ W/V+1 := by
  have positive : 0 < V := by
    rw [divisor]
    exact Nat.add_pos_left (Nat.mul_pos (by omega) (by omega)) _
  induction qhat, rhat using adjust.induct top next low with
  | case1 qhat rhat wrong stop =>
    have less : W/V < qhat := by
      rcases wrong with full | contradicts
      · rw [full]
        exact Nat.div_lt_of_lt_mul (by rwa [Nat.mul_comm] at digit)
      · exact (Nat.div_lt_iff_lt_mul positive).mpr (tooLarge divisor dividend w_ split contradicts)
    obtain ⟨less_,rfl⟩ : ∃ less_, qhat = less_+1 := ⟨qhat-1,(Nat.sub_add_cancel (Nat.one_le_of_lt less)).symm⟩
    have split' : less_*top+(rhat+top) = H := by
      rw [← split]
      ring
    have within := restLeft divisor dividend next_ v_ split' (by omega) (by omega)
    have most := (Nat.le_div_iff_mul_le positive).mpr within
    rw [adjust,if_pos wrong,if_pos stop]
    omega
  | case2 qhat rhat wrong on ih =>
    have less : W/V < qhat := by
      rcases wrong with full | contradicts
      · rw [full]
        exact Nat.div_lt_of_lt_mul (by rwa [Nat.mul_comm] at digit)
      · exact (Nat.div_lt_iff_lt_mul positive).mpr (tooLarge divisor dividend w_ split contradicts)
    obtain ⟨less_,rfl⟩ : ∃ less_, qhat = less_+1 := ⟨qhat-1,(Nat.sub_add_cancel (Nat.one_le_of_lt less)).symm⟩
    have split' : less_*top+(rhat+top) = H := by
      rw [← split]
      ring
    rw [adjust,if_pos wrong,if_neg on]
    exact ih split' (by omega) (by omega)
  | case3 qhat rhat right =>
    obtain ⟨-,agrees⟩ := not_or.mp right
    have over_ := oneOver divisor dividend v_ large split (Nat.not_lt.mp agrees) few
    rw [adjust,if_neg right]
    have most : qhat-1 ≤ W/V := by
      rw [Nat.le_div_iff_mul_le positive,Nat.sub_mul,Nat.one_mul]
      omega
    omega

theorem topWithin {u2 u1} (divisor : V = (top*2^32+next)*P+v) (dividend : W = ((u2*2^32+u1)*2^32+low)*P+w) (next_ : next < 2^32)
    (v_ : v < P) (digit : W < 2^32*V) : u2 ≤ top := by
  have wide : V < (top+1)*2^32*P := by
    calc V < (top*2^32+next+1)*P := by
          rw [divisor,Nat.succ_mul (top*2^32+next)]
          omega
      _ ≤ (top+1)*2^32*P := Nat.mul_le_mul_right _ (by omega)
  have narrow : u2*2^32*2^32*P < (top+1)*2^32*2^32*P := by
    calc u2*2^32*2^32*P ≤ ((u2*2^32+u1)*2^32+low)*P := Nat.mul_le_mul_right _ (by omega)
      _ ≤ W := by
          rw [dividend]
          exact Nat.le_add_right _ _
      _ < 2^32*V := digit
      _ ≤ 2^32*((top+1)*2^32*P) := Nat.mul_le_mul_left _ (Nat.le_of_lt wide)
      _ = (top+1)*2^32*2^32*P := by ring
  have limbs := Nat.lt_of_mul_lt_mul_right narrow
  omega

theorem firstWithin {u2 u1} (limb : u2 ≤ top) (u1_ : u1 < 2^32) (large : 2^31 ≤ top) : (u2*2^32+u1)/top ≤ 2^32+1 := by
  have most : u2*2^32+u1 < (2^32+2)*top := by
    calc u2*2^32+u1 < top*2^32+2^32 := by
          omega
      _ ≤ (2^32+2)*top := by omega
  exact Nat.lt_succ_iff.mp ((Nat.div_lt_iff_lt_mul (by omega)).mpr most)

theorem estimateBounds {u2 u1} (divisor : V = (top*2^32+next)*P+v) (dividend : W = ((u2*2^32+u1)*2^32+low)*P+w) (next_ : next < 2^32)
    (low_ : low < 2^32) (u1_ : u1 < 2^32) (v_ : v < P) (w_ : w < P) (large : 2^31 ≤ top) (digit : W < 2^32*V) :
    W/V ≤ estimate top next u2 u1 low ∧ estimate top next u2 u1 low ≤ W/V+1 := by
  have positive : 0 < top := by omega
  have parts := Nat.div_add_mod (u2*2^32+u1) top
  refine adjustBounds divisor dividend next_ v_ w_ large digit (by rw [Nat.mul_comm]; exact parts) ?_
    (firstWithin (topWithin divisor dividend next_ v_ digit) u1_ large)
  rw [Nat.le_div_iff_mul_le positive]
  have V_ : W/V*V ≤ W := Nat.div_mul_le_self W V
  have cut : W/V*top*(2^32*P) < (u2*2^32+u1+1)*(2^32*P) := by
    calc W/V*top*(2^32*P) = W/V*(top*2^32*P) := by ring
      _ ≤ W/V*V := by
          refine Nat.mul_le_mul_left _ ?_
          rw [divisor,Nat.add_mul,Nat.add_assoc]
          exact Nat.le_add_right _ _
      _ ≤ W := V_
      _ < ((u2*2^32+u1)*2^32+low+1)*P := by
          rw [dividend,Nat.succ_mul ((u2*2^32+u1)*2^32+low)]
          omega
      _ ≤ ((u2*2^32+u1+1)*2^32)*P := Nat.mul_le_mul_right _ (by omega)
      _ = (u2*2^32+u1+1)*(2^32*P) := by ring
  exact Nat.lt_succ_iff.mp (Nat.lt_of_mul_lt_mul_right cut)

end Estimate

theorem mulSubTurn (qhat u v us vs borrow carried) :
    mulSubLoop qhat (u :: us) (v :: vs) borrow carried =
    if (u.toNat : Int)-borrow-((qhat*v.toNat+carried)%2^32 : Nat) < 0 then
      (UInt32.ofNat ((u.toNat : Int)-borrow-((qhat*v.toNat+carried)%2^32 : Nat)+2^32).toNat :: (mulSubLoop qhat us vs 1 ((qhat*v.toNat+carried)/2^32)).1,
        (mulSubLoop qhat us vs 1 ((qhat*v.toNat+carried)/2^32)).2)
    else (UInt32.ofNat ((u.toNat : Int)-borrow-((qhat*v.toNat+carried)%2^32 : Nat)).toNat :: (mulSubLoop qhat us vs 0 ((qhat*v.toNat+carried)/2^32)).1,
      (mulSubLoop qhat us vs 0 ((qhat*v.toNat+carried)/2^32)).2) := by rw [mulSubLoop]

theorem mulSubValue {qhat borrow carried us vs} (long : us.length = vs.length) (small : borrow ≤ 1) :
    value us+(2^32)^us.length*((mulSubLoop qhat us vs borrow carried).2.1+(mulSubLoop qhat us vs borrow carried).2.2) =
      value (mulSubLoop qhat us vs borrow carried).1+qhat*value vs+borrow+carried ∧
    (mulSubLoop qhat us vs borrow carried).1.length = us.length := by
  induction us generalizing vs borrow carried with
  | nil =>
    rw [List.eq_nil_of_length_eq_zero long.symm,mulSubLoop,valueNil,List.length_nil,Nat.pow_zero,Nat.mul_zero]
    · dsimp only
      exact ⟨by omega,rfl⟩
    · intro _ _ _ _ same
      cases same
  | cons u us ih =>
    cases vs with
    | nil => cases long
    | cons v vs =>
      have long' : us.length = vs.length := Nat.succ.inj long
      have u_ := limbLt u
      have spread : qhat*(v.toNat+2^32*value vs) = qhat*v.toNat+2^32*(qhat*value vs) := by ring
      rw [mulSubTurn]
      split
      · rename_i under
        obtain ⟨sums,same⟩ := @ih 1 ((qhat*v.toNat+carried)/2^32) vs long' (Nat.le_refl 1)
        rw [valueCons,valueCons,valueCons,ofNatToNat,List.length_cons,List.length_cons,basePower,Nat.mul_assoc,spread,same]
        dsimp only
        omega
      · rename_i enough
        obtain ⟨sums,same⟩ := @ih 0 ((qhat*v.toNat+carried)/2^32) vs long' (Nat.zero_le 1)
        rw [valueCons,valueCons,valueCons,ofNatToNat,List.length_cons,List.length_cons,basePower,Nat.mul_assoc,spread,same]
        dsimp only
        omega

theorem limbOfValue (limbs n) : limbOf limbs n = value limbs/(2^32)^n%2^32 := limbAt limbs n

theorem limbOfLt (limbs n) : limbOf limbs n < 2^32 := limbLt _

theorem topLimb {limbs k} (long : limbs.length = k+1) : value limbs = limbOf limbs k*(2^32)^k+value limbs%(2^32)^k := by
  have below := valueLt limbs
  rw [long,basePower,Nat.mul_comm] at below
  rw [limbOfValue,Nat.mod_eq_of_lt (Nat.div_lt_of_lt_mul below),Nat.mul_comm,Nat.div_add_mod]

theorem topTwo {limbs k} (long : limbs.length = k+2) :
    value limbs = (limbOf limbs (k+1)*2^32+limbOf limbs k)*(2^32)^k+value limbs%(2^32)^k := by
  have first := topLimb long
  have second := Nat.mod_pow_succ (x := value limbs) (b := 2^32) (k := k)
  rw [← limbOfValue] at second
  rw [second] at first
  calc value limbs = _ := first
    _ = _ := by ring

theorem topThree {limbs k} (long : limbs.length = k+3) :
    value limbs = ((limbOf limbs (k+2)*2^32+limbOf limbs (k+1))*2^32+limbOf limbs k)*(2^32)^k+value limbs%(2^32)^k := by
  have first := topTwo long
  have second := Nat.mod_pow_succ (x := value limbs) (b := 2^32) (k := k)
  rw [← limbOfValue] at second
  rw [second,basePower] at first
  calc value limbs = _ := first
    _ = _ := by ring

theorem paddedLength (long short) : (padded long short).length = long.length := by
  induction long generalizing short with
  | nil => rfl
  | cons x xs ih => exact congrArg Nat.succ (ih _)

structure Digit (vn window : List UInt32) (result : UInt32 × List UInt32) : Prop where
  digit : result.1.toNat = value window/value vn
  rest : value result.2 = value window%value vn
  long : result.2.length = window.length

/-- A window that a digit of the quotient is left to be found for. -/
structure Ready (vn window : List UInt32) (k : Nat) : Prop where
  divisor : vn.length = k+2
  wide : window.length = k+3
  large : 2^31 ≤ limbOf vn (k+1)
  small : value window < 2^32*value vn

def divEstimate (vn window : List UInt32) : Nat :=
  estimate (limbOf vn (vn.length-1)) (limbOf vn (vn.length-2)) (limbOf window vn.length) (limbOf window (vn.length-1))
    (limbOf window (vn.length-2))

namespace Ready
variable {vn window : List UInt32} {k : Nat} (ready : Ready vn window k)
include ready

theorem positive : 0 < value vn := by
  have whole := topTwo ready.divisor
  have large := ready.large
  have P_ : 0 < (2^32)^k := Nat.pow_pos (by decide)
  have real : 0 < (limbOf vn (k+1)*2^32+limbOf vn k)*(2^32)^k := Nat.mul_pos (by omega) P_
  exact Nat.lt_of_lt_of_le real (Nat.le.intro whole.symm)

theorem below : value vn < (2^32)^(k+2) := by
  rw [← ready.divisor]
  exact valueLt vn

theorem fits : value window/value vn < 2^32 := Nat.div_lt_of_lt_mul (by rw [Nat.mul_comm]; exact ready.small)

theorem estimated : value window/value vn ≤ divEstimate vn window ∧ divEstimate vn window ≤ value window/value vn+1 := by
  have P_ : 0 < (2^32)^k := Nat.pow_pos (by decide)
  rw [divEstimate,ready.divisor]
  exact estimateBounds (topTwo ready.divisor) (topThree ready.wide) (limbOfLt vn k) (limbOfLt window k) (limbOfLt window (k+1))
    (Nat.mod_lt _ P_) (Nat.mod_lt _ P_) ready.large ready.small

theorem cut : (window.take (k+2)).length = vn.length := by
  rw [List.length_take,ready.divisor,ready.wide,Nat.min_eq_left (Nat.le_succ _)]

/-- What the subtraction leaves below the top limb, and what it takes from that limb. -/
theorem subtracts (qhat) : limbOf window (k+2)*(2^32)^(k+2)+qhat*value vn+value (mulSubLoop qhat (window.take (k+2)) vn 0 0).1 =
      value window+(2^32)^(k+2)*((mulSubLoop qhat (window.take (k+2)) vn 0 0).2.1+(mulSubLoop qhat (window.take (k+2)) vn 0 0).2.2) ∧
    (mulSubLoop qhat (window.take (k+2)) vn 0 0).1.length = k+2 := by
  obtain ⟨sums,same⟩ := @mulSubValue qhat 0 0 _ _ ready.cut (Nat.zero_le 1)
  have top := topLimb ready.wide
  rw [ready.cut,ready.divisor,valueTake,Nat.add_zero,Nat.add_zero] at sums
  rw [ready.cut,ready.divisor] at same
  exact ⟨by omega,same⟩

end Ready

section Correction
variable {u V W B low q qhat taken : Nat}

/-- One too many: what is missing is one unit above the window, and the divisor added back restores it. -/
theorem oneMissing (whole : u*B+qhat*V+low = W+B*taken) (q_ : W/V = q) (positive : 0 < V) (V_ : V < B) (low_ : low < B) (most : qhat ≤ q+1)
    (under : u < taken) : taken = u+1 ∧ qhat = q+1 ∧ low+V = W%V+B := by
  have parts := Nat.div_add_mod W V
  have reach := Nat.mul_le_mul_left B (show u+1 ≤ taken from under)
  rw [Nat.mul_succ,Nat.mul_comm _ u] at reach
  have over_ : W < qhat*V := by omega
  have high : qhat = q+1 := by
    have above := (Nat.div_lt_iff_lt_mul positive).mpr over_
    omega
  have twice : qhat*V = V*(W/V)+V := by
    rw [high,q_]
    ring
  have unit : taken = u+1 := by
    by_contra more
    have reach := Nat.mul_le_mul_left B (show u+2 ≤ taken by omega)
    rw [Nat.mul_add,Nat.mul_comm _ u] at reach
    omega
  rw [unit,Nat.mul_succ,Nat.mul_comm _ u] at whole
  omega

theorem noneMissing (whole : u*B+qhat*V+low = W+B*taken) (q_ : W/V = q) (positive : 0 < V) (least : q ≤ qhat)
    (within : taken ≤ u) : qhat = q ∧ low+(u-taken)*B = W%V := by
  have parts := Nat.div_add_mod W V
  have reach := Nat.mul_le_mul_left B within
  rw [Nat.mul_comm _ u] at reach
  have exact_ : qhat = q := by
    have below := (Nat.le_div_iff_mul_le positive).mpr (show qhat*V ≤ W by omega)
    omega
  have spread : (u-taken)*B = u*B-B*taken := by rw [Nat.sub_mul,Nat.mul_comm B]
  have same : qhat*V = V*(W/V) := by rw [exact_,q_,Nat.mul_comm]
  exact ⟨exact_,by omega⟩

/-- Adding the divisor back carries out of the window once. -/
theorem addedBack {vn row k r} (divisor : vn.length = k+2) (same : row.length = k+2) (r_ : r < (2^32)^(k+2))
    (left : value row+value vn = r+(2^32)^(k+2)) :
    (carry (fun p c => sumLimbs p+c) 0 (padded row vn)).2 = 1 ∧ value (carry (fun p c => sumLimbs p+c) 0 (padded row vn)).1 = r ∧
    (carry (fun p c => sumLimbs p+c) 0 (padded row vn)).1.length = k+2 := by
  have rows : (padded row vn).length = k+2 := (paddedLength row vn).trans same
  obtain ⟨sums,-⟩ := carryValue sumStep (show 0 < 2 by decide) (padded row vn)
  have count := carryLength (fun p c => sumLimbs p+c) 0 (padded row vn)
  rw [weighPadded (by rw [same,divisor]),rows,Nat.add_zero,left] at sums
  rw [rows] at count
  generalize carry (fun p c => sumLimbs p+c) 0 (padded row vn) = back at sums count ⊢
  obtain ⟨sum,back⟩ := back
  dsimp only at sums count ⊢
  have sum_ := valueLt sum
  rw [count] at sum_
  have one : back = 1 := by
    rcases Nat.lt_trichotomy back 1 with none_ | one | more
    · rw [Nat.lt_one_iff.mp none_,Nat.mul_zero] at sums
      omega
    · exact one
    · have reach := Nat.mul_le_mul_left ((2^32)^(k+2)) more
      omega
  rw [one,Nat.mul_one] at sums
  exact ⟨one,by omega,count⟩

end Correction

theorem Ready.under {vn window k} (ready : Ready vn window k) {row borrow carried}
    (sub : mulSubLoop (divEstimate vn window) (window.take (k+2)) vn 0 0 = (row,borrow,carried))
    (under : (limbOf window (k+2) : Int)-borrow-carried < 0) :
    (limbOf window (k+2) : Int)-borrow-carried = -1 ∧ divEstimate vn window = value window/value vn+1 ∧
    (carry (fun p c => sumLimbs p+c) 0 (padded row vn)).2 = 1 ∧
    value (carry (fun p c => sumLimbs p+c) 0 (padded row vn)).1 = value window%value vn ∧
    (carry (fun p c => sumLimbs p+c) 0 (padded row vn)).1.length = k+2 := by
  obtain ⟨whole,same⟩ := ready.subtracts (divEstimate vn window)
  rw [sub] at whole same
  dsimp only at whole same
  have low_ := valueLt row
  rw [same] at low_
  obtain ⟨unit,high,left⟩ := oneMissing whole rfl ready.positive ready.below low_ ready.estimated.2 (by omega)
  have r_ := Nat.lt_trans (Nat.mod_lt (value window) ready.positive) ready.below
  exact ⟨by omega,high,addedBack ready.divisor same r_ left⟩

theorem Ready.over_ {vn window k} (ready : Ready vn window k) {row borrow carried}
    (sub : mulSubLoop (divEstimate vn window) (window.take (k+2)) vn 0 0 = (row,borrow,carried))
    (enough : ¬(limbOf window (k+2) : Int)-borrow-carried < 0) :
    divEstimate vn window = value window/value vn ∧
    value row+((limbOf window (k+2) : Int)-borrow-carried).toNat*(2^32)^(k+2) = value window%value vn ∧
    ((limbOf window (k+2) : Int)-borrow-carried).toNat < 2^32 ∧ row.length = k+2 := by
  obtain ⟨whole,same⟩ := ready.subtracts (divEstimate vn window)
  rw [sub] at whole same
  dsimp only at whole same
  have u_ := limbOfLt window (k+2)
  obtain ⟨exact_,rest⟩ := noneMissing whole rfl ready.positive ready.estimated.1 (by omega)
  have top : ((limbOf window (k+2) : Int)-borrow-carried).toNat = limbOf window (k+2)-(borrow+carried) := by omega
  rw [top]
  exact ⟨exact_,rest,by omega,same⟩

theorem divStepRow {vn window row borrow carried} (sub : mulSubLoop (divEstimate vn window) (window.take vn.length) vn 0 0 = (row,borrow,carried)) :
    divStep vn window = if (limbOf window vn.length : Int)-borrow-carried < 0 then
      (UInt32.ofNat (divEstimate vn window-1),(carry (fun p c => sumLimbs p+c) 0 (padded row vn)).1 ++
        [UInt32.ofNat (((limbOf window vn.length : Int)-borrow-carried+2^32)%2^32).toNat+
          UInt32.ofNat (carry (fun p c => sumLimbs p+c) 0 (padded row vn)).2])
      else (UInt32.ofNat (divEstimate vn window),row ++ [UInt32.ofNat ((limbOf window vn.length : Int)-borrow-carried).toNat]) := by
  rw [divEstimate] at sub ⊢
  simp only [divStep,sub]

theorem divStepDigit {vn window k} (ready : Ready vn window k) : Digit vn window (divStep vn window) := by
  have fits := ready.fits
  have size : vn.length = k+2 := ready.divisor
  rcases sub : mulSubLoop (divEstimate vn window) (window.take (k+2)) vn 0 0 with ⟨row,borrow,carried⟩
  have step := divStepRow (by rw [size]; exact sub : mulSubLoop (divEstimate vn window) (window.take vn.length) vn 0 0 = (row,borrow,carried))
  rw [size] at step
  rw [step]
  split
  · rename_i under
    obtain ⟨last,high,one,left,count⟩ := ready.under sub under
    have zero : UInt32.ofNat (((-1 : Int)+2^32)%2^32).toNat+UInt32.ofNat 1 = 0 := by decide
    refine ⟨?_,?_,?_⟩
    · rw [ofNatToNat,high,Nat.add_sub_cancel,Nat.mod_eq_of_lt fits]
    · rw [last,one,zero,valueAppend,valueCons,valueNil,UInt32.toNat_zero,Nat.mul_zero,Nat.add_zero,Nat.mul_zero,Nat.add_zero,left]
    · rw [List.length_append,List.length_singleton,count,ready.wide]
  · rename_i enough
    obtain ⟨exact_,rest,last,same⟩ := ready.over_ sub enough
    refine ⟨?_,?_,?_⟩
    · rw [ofNatToNat,exact_,Nat.mod_eq_of_lt fits]
    · rw [valueAppend,same,valueCons,valueNil,Nat.mul_zero,ofNatToNat,Nat.mod_eq_of_lt last,Nat.add_zero,Nat.mul_comm]
      exact rest
    · rw [List.length_append,List.length_singleton,same,ready.wide]

theorem divLoopValue {vn rest k} (divisor : vn.length = k+2) (large : 2^31 ≤ limbOf vn (k+1)) (long : rest.length = k+2)
    (below : value rest < value vn) (un) :
    value vn*value (divLoop vn un rest).1+value (divLoop vn un rest).2 = value (un ++ rest) ∧ value (divLoop vn un rest).2 < value vn ∧
    (divLoop vn un rest).2.length = k+2 := by
  induction un with
  | nil => exact ⟨by rw [divLoop,valueNil,Nat.mul_zero,Nat.zero_add]; rfl,below,long⟩
  | cons limb un ih =>
    obtain ⟨parts,less,same⟩ := ih
    have window_ : value (limb :: (divLoop vn un rest).2) = limb.toNat+2^32*value (divLoop vn un rest).2 := valueCons _ _
    have small := limbLt limb
    have found := divStepDigit (show Ready vn (limb :: (divLoop vn un rest).2) k from ⟨divisor,by rw [List.length_cons,same],large,by omega⟩)
    have kept : value ((divStep vn (limb :: (divLoop vn un rest).2)).2.take (k+2)) = value (limb :: (divLoop vn un rest).2)%value vn := by
      rw [valueTake,found.rest,Nat.mod_eq_of_lt]
      rw [← divisor]
      exact Nat.lt_trans (Nat.mod_lt _ (Nat.zero_lt_of_lt below)) (valueLt vn)
    have split := Nat.div_add_mod (value (limb :: (divLoop vn un rest).2)) (value vn)
    rw [divLoop,divisor]
    refine ⟨?_,?_,?_⟩
    · rw [kept,List.cons_append,valueCons limb (un ++ rest),← parts,valueCons (divStep vn _).1,found.digit]
      calc value vn*(value (limb :: (divLoop vn un rest).2)/value vn+2^32*value (divLoop vn un rest).1)+value (limb :: (divLoop vn un rest).2)%value vn
          = value vn*(value (limb :: (divLoop vn un rest).2)/value vn)+value (limb :: (divLoop vn un rest).2)%value vn+
            2^32*(value vn*value (divLoop vn un rest).1) := by ring
        _ = _ := by
          rw [split,window_]
          ring
    · rw [kept]
      exact Nat.mod_lt _ (Nat.zero_lt_of_lt below)
    · rw [List.length_take,found.long,List.length_cons,same,Nat.min_eq_left (Nat.le_succ _)]

theorem leadingBounds {limb} (real : limb ≠ 0) : 2^31 ≤ limb.toNat*2^leadingZeros limb ∧ limb.toNat < 2^(32-leadingZeros limb) ∧
    leadingZeros limb ≤ 31 := by
  have positive : limb.toNat ≠ 0 := fun zero => real (UInt32.toNat_inj.mp (zero.trans UInt32.toNat_zero.symm))
  have least := Nat.log2_self_le positive
  have most : limb.toNat < 2^(Nat.log2 limb.toNat+1) := Nat.lt_log2_self
  have fits : Nat.log2 limb.toNat < 32 := (Nat.log2_lt positive).mpr (limbLt limb)
  rw [leadingZeros,if_neg real]
  refine ⟨?_,?_,Nat.sub_le _ _⟩
  · calc 2^31 = 2^Nat.log2 limb.toNat*2^(31-Nat.log2 limb.toNat) := by rw [← Nat.pow_add,Nat.add_sub_cancel' (by omega)]
      _ ≤ _ := Nat.mul_le_mul_right _ least
  · rwa [show 32-(31-Nat.log2 limb.toNat) = Nat.log2 limb.toNat+1 by omega]

theorem shiftedRow {shift limbs} (fits : shift ≤ 31) :
    value (if shift = 0 then limbs ++ [0] else (shlRow shift 0 limbs).1 ++ [UInt32.ofNat (shlRow shift 0 limbs).2]) = value limbs*2^shift ∧
    (if shift = 0 then limbs ++ [0] else (shlRow shift 0 limbs).1 ++ [UInt32.ofNat (shlRow shift 0 limbs).2]).length = limbs.length+1 := by
  split
  · rename_i none_
    rw [none_,valueAppend,List.length_append,Nat.pow_zero,Nat.mul_one]
    exact ⟨rfl,rfl⟩
  · obtain ⟨sums,below,long⟩ := shlRowValue (Nat.le_succ_of_le fits) limbs
    have wide : 2^shift ≤ 2^32 := Nat.pow_le_pow_right (by decide) (Nat.le_succ_of_le fits)
    rw [valueAppend,valueCons,valueNil,Nat.mul_zero,Nat.add_zero,ofNatToNat,Nat.mod_eq_of_lt (Nat.lt_of_lt_of_le below wide),long,sums,
      List.length_append,long]
    exact ⟨rfl,rfl⟩

theorem shiftedDivisor {shift k limbs} (fits : shift ≤ 31) (long : limbs.length = k+1)
    (least : 2^31 ≤ limbOf limbs k*2^shift) (most : limbOf limbs k < 2^(32-shift)) :
    value (if shift = 0 then limbs else (shlRow shift 0 limbs).1) = value limbs*2^shift ∧
    (if shift = 0 then limbs else (shlRow shift 0 limbs).1).length = k+1 ∧
    2^31 ≤ limbOf (if shift = 0 then limbs else (shlRow shift 0 limbs).1) k := by
  have P_ : 0 < (2^32)^k := Nat.pow_pos (by decide)
  have top := topLimb long
  have power : 2^32 = 2^(32-shift)*2^shift := by rw [← Nat.pow_add,Nat.sub_add_cancel (by omega)]
  have room : value limbs*2^shift < (2^32)^(k+1) := by
    calc value limbs*2^shift < (limbOf limbs k+1)*(2^32)^k*2^shift := by
          refine Nat.mul_lt_mul_of_pos_right ?_ (Nat.two_pow_pos _)
          have low := Nat.mod_lt (value limbs) P_
          rw [Nat.succ_mul]
          omega
      _ ≤ 2^(32-shift)*(2^32)^k*2^shift := Nat.mul_le_mul_right _ (Nat.mul_le_mul_right _ most)
      _ = (2^32)^(k+1) := by
          rw [basePower]
          nth_rewrite 2 [power]
          ring
  have same : value (if shift = 0 then limbs else (shlRow shift 0 limbs).1) = value limbs*2^shift ∧
      (if shift = 0 then limbs else (shlRow shift 0 limbs).1).length = k+1 := by
    split
    · rename_i none_
      rw [none_,Nat.pow_zero,Nat.mul_one]
      exact ⟨rfl,long⟩
    · obtain ⟨sums,-,wide⟩ := shlRowValue (Nat.le_succ_of_le fits) limbs
      rw [long] at sums wide
      have none_ : (shlRow shift 0 limbs).2 = 0 := by
        by_contra some_
        have reach := Nat.le_mul_of_pos_right ((2^32)^(k+1)) (Nat.pos_of_ne_zero some_)
        omega
      rw [none_,Nat.mul_zero,Nat.add_zero] at sums
      exact ⟨sums,wide⟩
  refine ⟨same.1,same.2,?_⟩
  rw [basePower,Nat.mul_comm (2^32)] at room
  rw [limbOfValue,same.1,Nat.mod_eq_of_lt (Nat.div_lt_of_lt_mul room),Nat.le_div_iff_mul_le P_]
  calc 2^31*(2^32)^k ≤ limbOf limbs k*2^shift*(2^32)^k := Nat.mul_le_mul_right _ least
    _ = limbOf limbs k*(2^32)^k*2^shift := by ring
    _ ≤ value limbs*2^shift := Nat.mul_le_mul_right _ (Nat.le.intro top.symm)

theorem lastLimb {limbs k} (long : limbs.length = k+1) : (limbs.getLast?.getD 0).toNat = limbOf limbs k := by
  rw [List.getLast?_eq_getElem?,long,Nat.add_sub_cancel,limbOf]

theorem cmpLess {u v} (divisor : Trimmed v) (less : magCmp u v = .lt) : value u < value v := by
  rw [magCmp,order] at less
  rcases Nat.lt_trichotomy u.length v.length with shorter | same | longer
  · exact longerAbove divisor shorter
  · rw [compare_eq_iff_eq.mpr same,Ordering.then,orderTopValue same] at less
    exact compare_lt_iff_lt.mp less
  · rw [compare_gt_iff_gt.mpr longer] at less
    cases less

theorem cmpMore {u v} (more : magCmp u v ≠ .lt) : v.length ≤ u.length := by
  refine Nat.not_lt.mp fun shorter => more ?_
  rw [magCmp,order,compare_lt_iff_lt.mpr shorter]
  rfl

def normalDivisor (shift : Nat) (v : List UInt32) : List UInt32 := if shift = 0 then v else (shlRow shift 0 v).1

def normalDividend (shift : Nat) (u : List UInt32) : List UInt32 :=
  if shift = 0 then u ++ [0] else (shlRow shift 0 u).1 ++ [UInt32.ofNat (shlRow shift 0 u).2]

/-- Both rows shifted until the divisor's top bit is set, and what stands above the windows. -/
structure Normal (u v : List UInt32) (shift k : Nat) : Prop where
  fits : shift ≤ 31
  divisor : (normalDivisor shift v).length = k+2
  large : 2^31 ≤ limbOf (normalDivisor shift v) (k+1)
  divisorValue : value (normalDivisor shift v) = value v*2^shift
  dividendValue : value (normalDividend shift u) = value u*2^shift
  long : ((normalDividend shift u).drop (u.length-v.length+1)).length = k+2
  below : value ((normalDividend shift u).drop (u.length-v.length+1)) < value (normalDivisor shift v)

theorem normalized {u v} (divisor : Trimmed v) (real : v ≠ []) (longer : v.length ≤ u.length) (many : v.length ≠ 1) :
    ∃ k, Normal u v (leadingZeros (v.getLast?.getD 0)) k := by
  obtain ⟨k,long⟩ : ∃ k, v.length = k+2 := by
    rcases v with - | ⟨first,- | ⟨second,rest⟩⟩
    · exact absurd rfl real
    · exact absurd rfl many
    · exact ⟨rest.length,rfl⟩
  have top_ : v.getLast?.getD 0 ≠ 0 := by
    intro zero
    refine divisor ?_
    rw [List.getLast?_eq_some_getLast real] at zero ⊢
    exact congrArg some zero
  obtain ⟨least,most,fits⟩ := leadingBounds top_
  have last := lastLimb long
  generalize leadingZeros (v.getLast?.getD 0) = shift at least most fits ⊢
  rw [last] at least most
  obtain ⟨vnValue,vnLong,large⟩ := shiftedDivisor fits long least most
  obtain ⟨unValue,unLong⟩ := @shiftedRow shift u fits
  rw [← normalDivisor] at vnValue vnLong large
  rw [← normalDividend] at unValue unLong
  refine ⟨k,fits,vnLong,large,vnValue,unValue,?_,?_⟩
  · rw [List.length_drop]
    omega
  generalize cut_ : u.length-v.length+1 = cut
  rw [valueDrop,unValue,vnValue]
  refine Nat.div_lt_of_lt_mul ?_
  have wide := valueLt u
  have reach : (2^32)^(k+1)*2^31 ≤ value v*2^shift := by
    have top := topLimb vnLong
    rw [vnValue] at top
    rw [Nat.mul_comm]
    exact Nat.le_trans (Nat.mul_le_mul_right _ large) (Nat.le.intro top.symm)
  calc value u*2^shift < (2^32)^u.length*2^shift := Nat.mul_lt_mul_of_pos_right wide (Nat.two_pow_pos _)
    _ ≤ (2^32)^u.length*2^31 := Nat.mul_le_mul_left _ (Nat.pow_le_pow_right (by decide) fits)
    _ = (2^32)^cut*((2^32)^(k+1)*2^31) := by
        rw [← Nat.mul_assoc,← Nat.pow_add]
        congr 2
        omega
    _ ≤ (2^32)^cut*(value v*2^shift) := Nat.mul_le_mul_left _ reach

theorem magDivmodValue {u v} (divisor : Trimmed v) (real : v ≠ []) :
    value (magDivmod u v).1 = value u/value v ∧ value (magDivmod u v).2 = value u%value v := by
  have positive : 0 < value v := Nat.pos_of_ne_zero fun zero => real ((trimmedZero divisor).mp zero)
  unfold magDivmod
  split
  · rename_i less
    have small := cmpLess divisor less
    exact ⟨(Nat.div_eq_of_lt small).symm,(Nat.mod_eq_of_lt small).symm⟩
  · rename_i more
    split
    · rename_i one
      have whole := topLimb (show v.length = 0+1 from one)
      rw [Nat.pow_zero,Nat.mul_one,Nat.mod_one,Nat.add_zero] at whole
      rw [← whole]
      have narrow : value u%value v < 2^32 := Nat.lt_trans (Nat.mod_lt _ positive) (by rw [whole]; exact limbOfLt v 0)
      rw [valueTrim,valueTrim,divSmallDiv positive,divSmallMod positive,valueCons,valueNil,ofNatToNat,Nat.mod_eq_of_lt narrow]
      exact ⟨rfl,rfl⟩
    · rename_i many
      obtain ⟨k,normal⟩ := normalized divisor real (cmpMore more) many
      dsimp only
      rw [← normalDivisor,← normalDividend]
      generalize leadingZeros (v.getLast?.getD 0) = shift at normal ⊢
      generalize cut_ : u.length-v.length+1 = cut
      have restLong := normal.long
      have restBelow := normal.below
      rw [cut_] at restLong restBelow
      obtain ⟨parts,below,-⟩ := divLoopValue normal.divisor normal.large restLong restBelow ((normalDividend shift u).take cut)
      rw [List.take_append_drop,normal.dividendValue,normal.divisorValue] at parts
      rw [normal.divisorValue] at below
      generalize divLoop (normalDivisor shift v) ((normalDividend shift u).take cut) ((normalDividend shift u).drop cut) = result at parts below ⊢
      obtain ⟨q,r⟩ := result
      have scaled : 0 < value v*2^shift := Nat.mul_pos positive (Nat.two_pow_pos _)
      have quotient : value q = value u/value v := by
        rw [← Nat.mul_div_mul_right _ _ (Nat.two_pow_pos shift),← parts,Nat.mul_add_div scaled,Nat.div_eq_of_lt below,Nat.add_zero]
      have remainder : value r = value u%value v*2^shift := by
        rw [← Nat.mul_mod_mul_right,← parts,Nat.mul_add_mod,Nat.mod_eq_of_lt below]
      refine ⟨by rw [valueTrim,quotient],?_⟩
      rw [valueTrim]
      split
      · rename_i none_
        rw [remainder,none_,Nat.pow_zero,Nat.mul_one]
      · rw [shrRowValue (Nat.le_succ_of_le normal.fits),remainder,Nat.mul_div_cancel _ (Nat.two_pow_pos _)]

end Bamts.BigInt
