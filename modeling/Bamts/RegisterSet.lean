import Bamts.BytecodeModel
import Mathlib.Data.Finset.Card

/-! The register bitset behind the verifier's facts: 64-bit words, exactly as the
source packs them, with the set-theoretic meaning of every operation. -/
set_option linter.all false
namespace Bamts.Bytecode

structure RegisterSet where
  words : List UInt64
  deriving DecidableEq, Repr

namespace RegisterSet

def wordsFor (registerCount : UInt32) : Nat := (registerCount.toNat + 63) / 64

def mask (index : Nat) : UInt64 := 1 <<< UInt64.ofNat (index % 64)

def empty (registerCount : UInt32) : RegisterSet := ⟨List.replicate (wordsFor registerCount) 0⟩

def full (registerCount : UInt32) : RegisterSet :=
  let wordsLen := wordsFor registerCount
  let words := List.replicate wordsLen (0xffffffffffffffff : UInt64)
  let remainder := registerCount.toNat % 64
  if remainder != 0 && wordsLen != 0 then ⟨words.set (wordsLen - 1) ((1 <<< UInt64.ofNat remainder) - 1)⟩
  else ⟨words⟩

def containsIndex (s : RegisterSet) (index : Nat) : Bool :=
  match s.words[index / 64]? with
  | some word => word &&& mask index != 0
  | none => false

def contains (s : RegisterSet) (register : Register) : Bool := s.containsIndex register.get.toNat

def insertIndex (s : RegisterSet) (index : Nat) : RegisterSet :=
  ⟨s.words.modify (index / 64) (· ||| mask index)⟩

def insert (s : RegisterSet) (register : Register) : RegisterSet := s.insertIndex register.get.toNat

def insertPrefix (s : RegisterSet) (count : Nat) : RegisterSet := (List.range count).foldl insertIndex s

def intersectWords : List UInt64 → List UInt64 → Bool × List UInt64
  | slot :: slots, other :: others =>
    let next := slot &&& other
    let rest := intersectWords slots others
    (next != slot || rest.1,next :: rest.2)
  | slots, _ => (false,slots)

def intersect (s other : RegisterSet) : Bool × RegisterSet :=
  let r := intersectWords s.words other.words
  (r.1,⟨r.2⟩)

theorem bitTest (w index) :
    (w &&& mask index != 0) = w.toBitVec.getLsbD (index % 64) := by
  have small : index % 64 < 64 := Nat.mod_lt _ (by decide)
  have pow : (mask index).toBitVec = BitVec.twoPow 64 (index % 64) := by
    simp [mask,BitVec.twoPow]
  have toZero : (w &&& mask index = 0) ↔ w.toBitVec &&& BitVec.twoPow 64 (index % 64) = 0#64 := by
    rw [← pow,← UInt64.toBitVec_inj]; rfl
  rw [BitVec.and_twoPow] at toZero
  cases h : w.toBitVec.getLsbD (index % 64) with
  | false => simpa [h] using toZero
  | true =>
    have nonzero : BitVec.twoPow 64 (index % 64) ≠ 0#64 := by
      intro z
      have := congrArg (fun b => b.getLsbD (index % 64)) z
      simp [small] at this
    simpa [h,nonzero] using toZero

theorem containsSplit (s : RegisterSet) (index) :
    s.containsIndex index = (s.words[index / 64]?.elim false fun w => w.toBitVec.getLsbD (index % 64)) := by
  unfold containsIndex
  cases s.words[index / 64]? with
  | none => rfl
  | some w => exact bitTest w index

theorem maskBit (index bit) :
    (mask index).toBitVec.getLsbD bit = decide (bit = index % 64) := by
  have h : (mask index).toBitVec = BitVec.twoPow 64 (index % 64) := by
    simp [mask,BitVec.twoPow]
  rw [h,BitVec.getLsbD_twoPow]
  by_cases same : bit = index % 64
  · simp [same,Nat.mod_lt]
  · simp [same,Ne.symm same]

theorem insertIndexLength (s : RegisterSet) (index) :
    (s.insertIndex index).words.length = s.words.length := by simp [insertIndex]

theorem containsInsertIndex (s : RegisterSet) (index query) (inside : index / 64 < s.words.length) :
    (s.insertIndex index).containsIndex query = (s.containsIndex query || decide (query = index)) := by
  rw [containsSplit,containsSplit]
  simp only [insertIndex,List.getElem?_modify]
  by_cases same : index / 64 = query / 64
  · rw [List.getElem?_eq_getElem (same ▸ inside)]
    have bit := maskBit index (query % 64)
    have joined : (query % 64 = index % 64) ↔ query = index := by omega
    simp [bit,joined,same]
  · have differ : query ≠ index := by rintro rfl; exact same rfl
    cases s.words[query / 64]? <;> simp [same,differ]

theorem containsInsert (s : RegisterSet) (r q) (inside : r.get.toNat / 64 < s.words.length) :
    (s.insert r).contains q = (s.contains q || decide (q = r)) := by
  have same : (q.get.toNat = r.get.toNat) ↔ q = r := by
    cases q; cases r; simp [UInt32.toNat_inj]
  simp only [insert,contains,containsInsertIndex s _ _ inside,same]

theorem insertPrefixLength (s : RegisterSet) (count) :
    (s.insertPrefix count).words.length = s.words.length := by
  induction count with
  | zero => rfl
  | succ n ih => simpa [insertPrefix,List.range_succ,insertIndexLength] using ih

theorem containsInsertPrefix (s : RegisterSet) (count query) (inside : count ≤ 64 * s.words.length) :
    (s.insertPrefix count).containsIndex query = (s.containsIndex query || decide (query < count)) := by
  induction count with
  | zero => simp [insertPrefix]
  | succ n ih =>
    have earlier := ih (by omega)
    have len := insertPrefixLength s n
    simp only [insertPrefix,List.range_succ,List.foldl_append,List.foldl_cons,List.foldl_nil] at earlier len ⊢
    rw [containsInsertIndex _ _ _ (by omega),earlier,Bool.or_assoc,← Bool.decide_or]
    congr 2
    exact propext (by omega)

theorem containsEmpty (registerCount index) :
    (empty registerCount).containsIndex index = false := by
  rw [containsSplit]
  simp only [empty,List.getElem?_replicate]
  split <;> simp

theorem emptyLength (registerCount) : (empty registerCount).words.length = wordsFor registerCount := by
  simp [empty]

theorem fullLength (registerCount) : (full registerCount).words.length = wordsFor registerCount := by
  simp only [full]
  split <;> simp

theorem insideWords {index registerCount} (inside : index < registerCount.toNat) :
    index / 64 < wordsFor registerCount := by unfold wordsFor; omega

theorem lowBits (remainder bit : Nat) (small : remainder < 64) :
    (((1 : UInt64) <<< UInt64.ofNat remainder) - 1).toBitVec.getLsbD bit = decide (bit < remainder) := by
  have pow : ((1 : UInt64) <<< UInt64.ofNat remainder).toNat = 2^remainder := by
    have bound : 2^remainder < 2^64 := Nat.pow_lt_pow_right (by decide) small
    have shifted : ((1 : UInt64) <<< UInt64.ofNat remainder).toNat = 2^remainder % 2^64 := by
      simp [Nat.mod_eq_of_lt small,Nat.shiftLeft_eq]
    rw [shifted,Nat.mod_eq_of_lt bound]
  have one : (1 : UInt64) ≤ (1 : UInt64) <<< UInt64.ofNat remainder := by
    rw [UInt64.le_iff_toNat_le,pow]
    exact Nat.one_le_two_pow
  rw [BitVec.getLsbD,UInt64.toNat_toBitVec,UInt64.toNat_sub_of_le _ _ one,pow]
  exact Nat.testBit_two_pow_sub_one remainder bit

theorem containsFull {registerCount index} (inside : index < registerCount.toNat) :
    (full registerCount).containsIndex index = true := by
  have word := insideWords inside
  have ones : (0xffffffffffffffff : UInt64).toBitVec.getLsbD (index % 64) = true := by
    have h : (0xffffffffffffffff : UInt64).toBitVec = BitVec.allOnes 64 := by decide
    rw [h,BitVec.getLsbD_allOnes]
    exact decide_eq_true (Nat.mod_lt _ (by decide))
  rw [containsSplit]
  simp only [full]
  split
  · simp only [List.getElem?_set,List.length_replicate,List.getElem?_replicate]
    by_cases last : wordsFor registerCount - 1 = index / 64
    · have bit := lowBits (registerCount.toNat % 64) (index % 64) (Nat.mod_lt _ (by decide))
      have below : index % 64 < registerCount.toNat % 64 := by
        rename_i partialWord
        simp only [bne_iff_ne,Bool.and_eq_true] at partialWord
        unfold wordsFor at last
        omega
      have inRange : wordsFor registerCount - 1 < wordsFor registerCount := by omega
      rw [if_pos last,if_pos inRange]
      exact bit.trans (decide_eq_true below)
    · rw [if_neg last,if_pos word]
      exact ones
  · rw [List.getElem?_replicate,if_pos word]
    exact ones

theorem intersectLength (s other : RegisterSet) : (s.intersect other).2.words.length = s.words.length := by
  have h : ∀ a b, (intersectWords a b).2.length = a.length := by
    intro a b
    induction a, b using intersectWords.induct with
    | case1 slot slots o others ih => simp [intersectWords,ih]
    | case2 slots o _ => simp [intersectWords]
  exact h _ _

theorem intersectWordsAt (a b) (n : Nat) (same : a.length = b.length) :
    (intersectWords a b).2[n]? = (a[n]?.bind fun x => b[n]?.map (x &&& ·)) := by
  induction a generalizing b n with
  | nil => cases b <;> simp [intersectWords]
  | cons x xs ih =>
    cases b with
    | nil => simp at same
    | cons y ys =>
      cases n with
      | zero => simp [intersectWords]
      | succ n => simpa [intersectWords] using ih ys n (by simpa using same)

theorem containsIntersect (s other : RegisterSet) (index) (same : s.words.length = other.words.length) :
    (s.intersect other).2.containsIndex index = (s.containsIndex index && other.containsIndex index) := by
  simp only [containsSplit,intersect,intersectWordsAt _ _ _ same]
  cases s.words[index / 64]? with
  | none => rfl
  | some x => cases other.words[index / 64]? <;> simp

theorem intersectUnchanged (s other : RegisterSet) (quiet : (s.intersect other).1 = false) :
    (s.intersect other).2 = s := by
  have h : ∀ a b, (intersectWords a b).1 = false → (intersectWords a b).2 = a := by
    intro a b
    induction a, b using intersectWords.induct with
    | case1 slot slots o others ih =>
      intro quiet
      simp only [intersectWords,Bool.or_eq_false_iff,bne_eq_false_iff_eq] at quiet ⊢
      rw [quiet.1,ih quiet.2]
    | case2 slots o _ => intro _; simp [intersectWords]
  simp only [intersect] at quiet ⊢
  rw [h _ _ quiet]

def ones (w : UInt64) : Nat := ((Finset.range 64).filter fun bit => w.toBitVec.getLsbD bit).card

def size (s : RegisterSet) : Nat := (s.words.map ones).sum

theorem onesSubset (w m : UInt64) :
    ((Finset.range 64).filter fun bit => (w &&& m).toBitVec.getLsbD bit) ⊆
      (Finset.range 64).filter fun bit => w.toBitVec.getLsbD bit := by
  intro bit h
  simp only [Finset.mem_filter,UInt64.toBitVec_and,BitVec.getLsbD_and,Bool.and_eq_true] at h ⊢
  exact ⟨h.1,h.2.1⟩

theorem onesAndLt (w m) (changed : w &&& m ≠ w) : ones (w &&& m) < ones w := by
  apply Finset.card_lt_card
  refine Finset.ssubset_iff_subset_ne.mpr ⟨onesSubset w m,?_⟩
  intro same
  apply changed
  apply UInt64.toBitVec_inj.mp
  apply BitVec.eq_of_getLsbD_eq
  intro bit small
  have both := Finset.ext_iff.mp same bit
  simp only [Finset.mem_filter,Finset.mem_range,small,true_and] at both
  exact Bool.eq_iff_iff.mpr both

theorem onesBound (w) : ones w ≤ 64 := by
  simpa [ones] using Finset.card_filter_le (Finset.range 64) fun bit => w.toBitVec.getLsbD bit = true

theorem sizeBound (s : RegisterSet) : s.size ≤ 64 * s.words.length := by
  have h : ∀ ws : List UInt64, (ws.map ones).sum ≤ 64 * ws.length := by
    intro ws
    induction ws with
    | nil => simp
    | cons w ws ih =>
      have bound := onesBound w
      simp only [List.map_cons,List.sum_cons,List.length_cons]
      omega
  exact h s.words

theorem intersectShrinks (s other : RegisterSet) :
    (s.intersect other).2.size + (s.intersect other).1.toNat ≤ s.size := by
  have h : ∀ a b,
      ((intersectWords a b).2.map ones).sum + (intersectWords a b).1.toNat ≤ (a.map ones).sum := by
    intro a b
    induction a, b using intersectWords.induct with
    | case1 slot slots o others ih =>
      simp only [intersectWords,List.map_cons,List.sum_cons]
      by_cases same : slot &&& o = slot
      · simp only [same,bne_self_eq_false,Bool.false_or]; omega
      · have less := onesAndLt slot o same
        have flag : (slot &&& o != slot) = true := bne_iff_ne.mpr same
        rw [flag,Bool.true_or]
        simp only [Bool.toNat_true]
        omega
    | case2 slots o _ => simp [intersectWords]
  exact h _ _

end RegisterSet

end Bamts.Bytecode
