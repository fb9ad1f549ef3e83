import Mathlib.Data.Nat.Bits
import Mathlib.Algebra.Group.Nat.Defs

/-! Arithmetic of 64-bit words that stops where the result leaves the word or the count leaves the width. -/
set_option linter.all false
namespace Bamts.CheckedWord

variable {a b count : Nat}

def subtract (a b : Nat) : Option Nat := if b ≤ a then some (a-b) else none
def add (a b : Nat) : Option Nat := if a+b < 2^64 then some (a+b) else none
def multiply (a b : Nat) : Option Nat := if a*b < 2^64 then some (a*b) else none
def divide (a b : Nat) : Option Nat := if 0 < b then some (a/b) else none
def remainder (a b : Nat) : Option Nat := if 0 < b then some (a%b) else none

def shiftLeft (value count : Nat) : Option Nat := if count < 64 then some (value*2^count%2^64) else none
def shiftRight (value count : Nat) : Option Nat := if count < 64 then some (value >>> count) else none

def saturating (count : Nat) : Nat := min count (2^64-1)

theorem subtractExact (order : b ≤ a) : subtract a b = some (a-b) := if_pos order
theorem addExact (room : a+b < 2^64) : add a b = some (a+b) := if_pos room
theorem multiplyExact (room : a*b < 2^64) : multiply a b = some (a*b) := if_pos room
theorem divideExact (some_ : 0 < b) : divide a b = some (a/b) := if_pos some_
theorem remainderExact (some_ : 0 < b) : remainder a b = some (a%b) := if_pos some_

theorem shiftLeftExact (width : count < 64) (room : a*2^count < 2^64) : shiftLeft a count = some (a*2^count) := by
  rw [shiftLeft,if_pos width,Nat.mod_eq_of_lt room]

theorem shiftRightExact (width : count < 64) : shiftRight a count = some (a/2^count) := by
  rw [shiftRight,if_pos width,Nat.shiftRight_eq_div_pow]

theorem saturatingNext (count) : saturating (saturating count+1) = saturating (count+1) := by
  unfold saturating
  omega

/-- A word and bits below its zeros. -/
theorem joinBits {value bits} (k) (less : bits < 2^k) : value*2^k ||| bits = value*2^k+bits := by
  rw [Nat.mul_comm,Nat.two_pow_add_eq_or_of_lt less]

end Bamts.CheckedWord
