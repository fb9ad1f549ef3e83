import Mathlib.Algebra.Order.Field.Basic
import Mathlib.Algebra.Order.Group.Abs
import Mathlib.Order.Monotone.Basic
import Mathlib.Algebra.Group.Nat.Even
import Mathlib.Tactic.Ring

/-! The nearest point of a rising sequence, and of two that are equally near the one with the even index. -/
set_option linter.all false
namespace Bamts.NearestPoint

variable {K : Type} [Field K] [LinearOrder K] [IsStrictOrderedRing K] {grid : Nat → K} {x y : K} {i j : Nat}

structure Nearest (grid : Nat → K) (x : K) (i : Nat) : Prop where
  closest : ∀ j, |grid i-x| ≤ |grid j-x|
  even : ∀ j, j ≠ i → |grid i-x| = |grid j-x| → Even i

theorem squaresApart (x a b : K) : (b-x)^2-(a-x)^2 = (b-a)*(a+b-2*x) := by ring

/-- Of two points the one on the nearer side of their middle is nearer. -/
theorem nearerIff (less : grid i < grid j) : |grid i-x| ≤ |grid j-x| ↔ 2*x ≤ grid i+grid j := by
  rw [← sq_le_sq,← sub_nonneg,squaresApart,mul_nonneg_iff_of_pos_left (sub_pos.mpr less),sub_nonneg]

theorem fartherIff (less : grid i < grid j) : |grid j-x| ≤ |grid i-x| ↔ grid i+grid j ≤ 2*x := by
  rw [← not_lt,← not_lt,not_iff_not,← sq_lt_sq,← sub_pos,squaresApart,mul_pos_iff_of_pos_left (sub_pos.mpr less),sub_pos]

theorem equalIff (less : grid i < grid j) : |grid i-x| = |grid j-x| ↔ 2*x = grid i+grid j := by
  rw [le_antisymm_iff,nearerIff less,fartherIff less,← le_antisymm_iff]

variable (rising : StrictMono grid)
include rising

theorem nearestIff : Nearest grid x i ↔ (∀ j, j < i → grid j+grid i ≤ 2*x) ∧ (∀ j, i < j → 2*x ≤ grid i+grid j) ∧
    (¬Even i → (∀ j, j < i → grid j+grid i ≠ 2*x) ∧ ∀ j, i < j → 2*x ≠ grid i+grid j) := by
  constructor
  · intro nearest
    refine ⟨fun j less => (fartherIff (rising less)).mp (nearest.closest j),fun j more => (nearerIff (rising more)).mp (nearest.closest j),
      fun odd => ⟨fun j less same => odd (nearest.even j less.ne ?_),fun j more same => odd (nearest.even j more.ne' ?_)⟩⟩
    · exact ((equalIff (rising less)).mpr same.symm).symm
    · exact (equalIff (rising more)).mpr same
  · rintro ⟨below,above,odd⟩
    constructor
    · intro j
      rcases lt_trichotomy j i with less | same | more
      · exact (fartherIff (rising less)).mpr (below j less)
      · rw [same]
      · exact (nearerIff (rising more)).mpr (above j more)
    · intro j other same
      by_contra odd_
      rcases Nat.lt_or_gt_of_ne other with less | more
      · exact (odd odd_).1 j less ((equalIff (rising less)).mp same.symm).symm
      · exact (odd odd_).2 j more ((equalIff (rising more)).mp same)

/-- Only the neighbours need to be looked at. -/
theorem nearestBetween (below : ∀ j, j+1 = i → grid j+grid i ≤ 2*x) (above : 2*x ≤ grid i+grid (i+1))
    (odd : ¬Even i → (∀ j, j+1 = i → grid j+grid i ≠ 2*x) ∧ 2*x ≠ grid i+grid (i+1)) : Nearest grid x i := by
  refine (nearestIff rising).mpr ⟨fun j less => ?_,fun j more => ?_,fun odd_ => ⟨fun j less => ?_,fun j more => ?_⟩⟩
  · obtain ⟨k,rfl⟩ := Nat.exists_eq_succ_of_ne_zero (Nat.ne_zero_of_lt less)
    have order := rising.monotone (Nat.lt_succ_iff.mp less)
    exact (add_le_add_left order _).trans (below k rfl)
  · have order := rising.monotone (Nat.succ_le_of_lt more)
    exact above.trans (add_le_add_right order _)
  · obtain ⟨k,rfl⟩ := Nat.exists_eq_succ_of_ne_zero (Nat.ne_zero_of_lt less)
    have near := lt_of_le_of_ne (below k rfl) ((odd odd_).1 k rfl)
    have order := rising.monotone (Nat.lt_succ_iff.mp less)
    exact ((add_le_add_left order _).trans_lt near).ne
  · have near := lt_of_le_of_ne above (odd odd_).2
    have order := rising.monotone (Nat.succ_le_of_lt more)
    exact (near.trans_le (add_le_add_right order _)).ne

theorem middleBelow (j) : grid j+grid (j+1) < 2*grid (j+1) := by
  rw [two_mul]
  exact add_lt_add_left (rising (Nat.lt_succ_self j)) _

theorem middleAbove (i) : 2*grid i < grid i+grid (i+1) := by
  rw [two_mul]
  exact add_lt_add_right (rising (Nat.lt_succ_self i)) _

theorem nearestExact : Nearest grid (grid i) i := by
  refine nearestBetween rising ?_ (middleAbove rising i).le fun _ => ⟨?_,(middleAbove rising i).ne⟩
  · rintro j rfl
    exact (middleBelow rising j).le
  · rintro j rfl
    exact (middleBelow rising j).ne

/-- Between two neighbours the middle decides, and in the middle the even index. -/
theorem nearestDown (least : grid i ≤ x) (before : 2*x < grid i+grid (i+1) ∨ 2*x = grid i+grid (i+1) ∧ Even i) : Nearest grid x i := by
  have double : 2*grid i ≤ 2*x := mul_le_mul_of_nonneg_left least zero_le_two
  refine nearestBetween rising ?_ ?_ fun odd => ⟨?_,?_⟩
  · rintro j rfl
    exact ((middleBelow rising j).trans_le double).le
  · rcases before with less | ⟨same,-⟩
    · exact less.le
    · exact same.le
  · rintro j rfl
    exact ((middleBelow rising j).trans_le double).ne
  · exact (before.resolve_right fun tie => odd tie.2).ne

theorem nearestUp (most : x ≤ grid (i+1)) (behind : grid i+grid (i+1) < 2*x ∨ 2*x = grid i+grid (i+1) ∧ ¬Even i) : Nearest grid x (i+1) := by
  have double : 2*x ≤ 2*grid (i+1) := mul_le_mul_of_nonneg_left most zero_le_two
  have before := double.trans_lt (middleAbove rising (i+1))
  refine nearestBetween rising ?_ before.le fun odd => ⟨?_,before.ne⟩
  · rintro j same
    obtain rfl := Nat.succ.inj same
    rcases behind with more | ⟨same,-⟩
    · exact more.le
    · exact same.ge
  · rintro j same
    obtain rfl := Nat.succ.inj same
    refine (behind.resolve_right fun tie => odd ?_).ne
    exact Nat.even_add_one.mpr tie.2

/-- Nearest points keep the order. -/
theorem nearestMono (order : x ≤ y) (first : Nearest grid x i) (second : Nearest grid y j) : i ≤ j := by
  obtain ⟨below,-,odd⟩ := (nearestIff rising).mp first
  obtain ⟨-,above,odd'⟩ := (nearestIff rising).mp second
  by_contra crossed
  have less := not_le.mp crossed
  have double : 2*x ≤ 2*y := mul_le_mul_of_nonneg_left order zero_le_two
  have tie : 2*x = grid j+grid i := le_antisymm (double.trans (above i less)) (below j less)
  have tie' : 2*y = grid j+grid i := le_antisymm (above i less) ((below j less).trans double)
  have even : Even i := by
    by_contra odd_
    exact (odd odd_).1 j less tie.symm
  have even' : Even j := by
    by_contra odd_
    exact (odd' odd_).2 i less tie'
  have between : j+1 < i := by
    refine lt_of_le_of_ne less ?_
    rintro rfl
    exact Nat.even_add_one.mp even even'
  have near := tie ▸ below (j+1) between
  exact absurd near (not_le.mpr (add_lt_add_left (rising (Nat.lt_succ_self j)) _))

theorem nearestUnique (first : Nearest grid x i) (second : Nearest grid x j) : i = j :=
  Nat.le_antisymm (nearestMono rising le_rfl first second) (nearestMono rising le_rfl second first)

omit rising in
theorem nearestScaled {unit : K} (positive : 0 < unit) (nearest : Nearest grid x i) : Nearest (fun j => grid j*unit) (x*unit) i := by
  have scaled : ∀ j, |grid j*unit-x*unit| = |grid j-x| * unit := by
    intro j
    rw [← sub_mul,abs_mul,abs_of_pos positive]
  refine ⟨fun j => ?_,fun j other same => nearest.even j other ?_⟩
  · rw [scaled,scaled]
    exact mul_le_mul_of_nonneg_right (nearest.closest j) positive.le
  · rw [scaled,scaled] at same
    exact mul_right_cancel₀ positive.ne' same

end Bamts.NearestPoint
