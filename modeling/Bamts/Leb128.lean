import Bamts.ByteReader
import Mathlib.Data.Nat.Bitwise
import Mathlib.Tactic.Ring

/-! Canonical unsigned LEB128 of a `u32`: the writer shared by the three encoders and
the reader of `program.rs`. The reader accepts exactly what the writer emits. -/
set_option linter.all false
namespace Bamts.Leb128
open ByteReader

inductive Leb128Error where
  | unexpectedEof
  | integerOverflow
  | nonCanonicalInteger
  deriving DecidableEq, Repr

-- Five groups exhaust 32 bits, so the fuel never runs out.
def writeGroups : Nat → UInt32 → Bytes
  | 0, _ => []
  | fuel+1, remaining =>
    let byte := (remaining &&& 0x7f).toUInt8
    let next := remaining >>> 7
    if next == 0 then [byte] else (byte ||| 0x80) :: writeGroups fuel next

def writeU32 (value : UInt32) : Bytes := writeGroups 5 value

/- `more` counts the groups still allowed after this one: the shift is `28 - 7 * more`
and `more = 0` is the fifth group. The offset is returned also on an error. -/
def readGroups (bytes : Bytes) (start : Nat) : Nat → Nat → UInt32 → Except Leb128Error UInt32 × Nat
  | more, offset, result =>
    match bytes[offset]? with
    | none => (.error .unexpectedEof,offset)
    | some byte =>
      match more with
      | 0 =>
        if byte &&& 0x80 != 0 || byte > 0x0f then (.error .integerOverflow,offset+1)
        else if byte == 0 then (.error .nonCanonicalInteger,offset+1)
        else (.ok (result ||| (byte.toUInt32 <<< 28)),offset+1)
      | more+1 =>
        let result := result ||| ((byte &&& 0x7f).toUInt32 <<< UInt32.ofNat (28 - 7 * (more+1)))
        if byte &&& 0x80 == 0 then
          if byte == 0 && offset+1 - start > 1 then (.error .nonCanonicalInteger,offset+1)
          else (.ok result,offset+1)
        else readGroups bytes start more (offset+1) result

def readLeb128 (bytes : Bytes) (offset : Nat) : Except Leb128Error UInt32 × Nat :=
  readGroups bytes offset 4 offset 0

theorem lowSeven (r : UInt32) : (r &&& 0x7f).toUInt8.toNat = r.toNat % 128 := by
  rw [UInt32.toNat_toUInt8,UInt32.toNat_and]
  have mask : (0x7f : UInt32).toNat = 2^7 - 1 := rfl
  rw [mask,Nat.and_two_pow_sub_one_eq_mod]
  omega

theorem shiftSeven (r : UInt32) : (r >>> 7).toNat = r.toNat / 128 := by
  simp [Nat.shiftRight_eq_div_pow]

theorem setTop (b : UInt8) (small : b.toNat < 128) : (b ||| 0x80).toNat = b.toNat + 128 := by
  rw [UInt8.toNat_or]
  have top : (0x80 : UInt8).toNat = 2^7 * 1 := rfl
  rw [top,Nat.or_comm,← Nat.two_pow_add_eq_or_of_lt small]
  omega

theorem writeGroupsStep (fuel r) :
    writeGroups (fuel+1) r = if r.toNat < 128 then [UInt8.ofNat r.toNat]
      else UInt8.ofNat (r.toNat % 128 + 128) :: writeGroups fuel (r >>> 7) := by
  have low := lowSeven r
  have high := shiftSeven r
  have zero : (r >>> 7 == 0) = decide (r.toNat < 128) := by
    rw [Bool.eq_iff_iff,beq_iff_eq,decide_eq_true_eq,← UInt32.toNat_inj,high]
    simp
  rw [writeGroups]
  simp only [zero,decide_eq_true_eq]
  split
  · congr 1
    apply UInt8.toNat_inj.mp
    rw [low,UInt8.toNat_ofNat']
    omega
  · congr 1
    apply UInt8.toNat_inj.mp
    rw [setTop _ (by omega),low,UInt8.toNat_ofNat']
    omega

theorem topBit (b : UInt8) : (b &&& 0x80 == 0) = decide (b.toNat < 128) := by
  have low : b &&& 0x80 = if b.toNat < 128 then 0 else 0x80 := by
    have all : ∀ n : Fin 256, (UInt8.ofNat n) &&& 0x80 = if n.val < 128 then 0 else 0x80 := by
      decide +kernel
    simpa using all ⟨b.toNat,b.toNat_lt⟩
  rw [low]
  split <;> simp [*]

theorem payload (b : UInt8) : (b &&& 0x7f).toUInt32.toNat = b.toNat % 128 := by
  rw [UInt8.toNat_toUInt32,UInt8.toNat_and]
  have mask : (0x7f : UInt8).toNat = 2^7 - 1 := rfl
  rw [mask,Nat.and_two_pow_sub_one_eq_mod]

theorem accumulate {result digit} {shift : Nat} (small : shift < 32) (below : result.toNat < 2^shift) (fits : digit.toNat * 2^shift < 2^32) :
    (result ||| (digit <<< UInt32.ofNat shift)).toNat = result.toNat + digit.toNat * 2^shift := by
  have amount : (UInt32.ofNat shift).toNat = shift := UInt32.toNat_ofNat_of_lt' (by rw [UInt32.size]; omega)
  rw [UInt32.toNat_or,UInt32.toNat_shiftLeft,amount,Nat.mod_eq_of_lt small,Nat.shiftLeft_eq,
    Nat.mod_eq_of_lt fits,Nat.or_comm,Nat.mul_comm,← Nat.two_pow_add_eq_or_of_lt below]
  omega

theorem writeGroupsWord (fuel r b) (small : b.toNat < 128) (same : r.toNat = b.toNat) : writeGroups (fuel+1) r = [b] := by
  rw [writeGroupsStep,if_pos (by omega),same,UInt8.ofNat_toNat]

theorem writeGroupsMore (fuel r next b) (top : 128 ≤ b.toNat) (nonzero : next ≠ 0) (same : r.toNat = b.toNat % 128 + 128 * next.toNat) :
    writeGroups (fuel+1) r = b :: writeGroups fuel next := by
  have positive : 0 < next.toNat := by
    rcases Nat.eq_zero_or_pos next.toNat with zero | positive
    · exact absurd (UInt32.toNat_inj.mp zero) nonzero
    · exact positive
  have word := b.toNat_lt
  have shifted : r >>> 7 = next := by
    apply UInt32.toNat_inj.mp
    rw [shiftSeven]
    omega
  have low : r.toNat % 128 + 128 = b.toNat := by omega
  rw [writeGroupsStep,if_neg (by omega),low,UInt8.ofNat_toNat,shifted]

theorem writeGroupsHead (fuel r) : ∃ b tail, writeGroups (fuel+1) r = b :: tail := by
  rw [writeGroupsStep]
  split
  · exact ⟨_,_,rfl⟩
  · exact ⟨_,_,rfl⟩

/- From the group with `more` groups to follow: what is read is `result` plus a remaining
value `r` shifted into place, and the bytes are the canonical groups of `r`. -/
def Groups (bytes : Bytes) (more offset : Nat) (result value : UInt32) (stop : Nat) : Prop :=
  ∃ r : UInt32, ∃ tail, r.toNat < 2^(4 + 7*more) ∧ (more < 4 → r ≠ 0) ∧
    value.toNat = result.toNat + r.toNat * 2^(28 - 7*more) ∧
    bytes.drop offset = writeGroups (more+1) r ++ tail ∧ stop = offset + (writeGroups (more+1) r).length

theorem okValue {result value stop next} :
    ((.ok result,next) : Except Leb128Error UInt32 × Nat) = (.ok value,stop) ↔
      value.toNat = result.toNat ∧ stop = next := by
  rw [Prod.mk.injEq,Except.ok.injEq,UInt32.toNat_inj]
  exact and_congr eq_comm eq_comm

theorem readLast {bytes start offset result value stop b} (found : bytes[offset]? = some b) (below : result.toNat < 2^28) :
    readGroups bytes start 0 offset result = (.ok value,stop) ↔
      1 ≤ b.toNat ∧ b.toNat ≤ 15 ∧ value.toNat = result.toNat + b.toNat * 2^28 ∧ stop = offset+1 := by
  have top : (b &&& 0x80 != 0) = decide (128 ≤ b.toNat) := by
    rw [bne,topBit b,Bool.eq_iff_iff]
    simp
  have large : (b > 0x0f) ↔ 15 < b.toNat := UInt8.lt_iff_toNat_lt
  have zero : (b == 0) = decide (b.toNat = 0) := by
    rw [Bool.eq_iff_iff,beq_iff_eq,decide_eq_true_eq,← UInt8.toNat_inj]
    rfl
  unfold readGroups
  simp only [found,top,zero,Bool.or_eq_true,decide_eq_true_eq,large]
  split
  · constructor
    · intro h; cases h
    · intro h; omega
  · split
    · constructor
      · intro h; cases h
      · intro h; omega
    · have sum : (result ||| b.toUInt32 <<< UInt32.ofNat 28).toNat = result.toNat + b.toNat * 2^28 :=
        (accumulate (by decide) below (by rw [UInt8.toNat_toUInt32]; omega)).trans
          (by rw [UInt8.toNat_toUInt32])
      rw [okValue]
      change value.toNat = (result ||| b.toUInt32 <<< UInt32.ofNat 28).toNat ∧ _ ↔ _
      omega

theorem readMore {bytes start more offset result v e b}
    (found : bytes[offset]? = some b) (few : more < 4) (below : result.toNat < 2^(28 - 7*(more+1))) (first : start ≤ offset) :
    ∃ next, next.toNat = result.toNat + b.toNat % 128 * 2^(28 - 7*(more+1)) ∧
    (readGroups bytes start (more+1) offset result = (.ok v,e) ↔
      (b.toNat < 128 ∧ (b.toNat = 0 → offset = start) ∧ v = next ∧ e = offset+1) ∨
      (128 ≤ b.toNat ∧ readGroups bytes start more (offset+1) next = (.ok v,e))) := by
  have zero : (b == 0) = decide (b.toNat = 0) := by
    rw [Bool.eq_iff_iff,beq_iff_eq,decide_eq_true_eq,← UInt8.toNat_inj]
    rfl
  have power : 2^(28 - 7*(more+1)) * 128 ≤ 2^28 := by
    have h : 2^(28 - 7*(more+1)) * 2^7 = 2^(28 - 7*(more+1) + 7) := (Nat.pow_add ..).symm
    have le : 2^(28 - 7*(more+1) + 7) ≤ 2^28 := Nat.pow_le_pow_right (by decide) (by omega)
    omega
  have digit : b.toNat % 128 * 2^(28 - 7*(more+1)) < 2^32 := by
    have small : b.toNat % 128 < 128 := Nat.mod_lt _ (by decide)
    have h := Nat.mul_le_mul_right (2^(28 - 7*(more+1))) (Nat.le_of_lt small)
    omega
  refine ⟨result ||| (b &&& 0x7f).toUInt32 <<< UInt32.ofNat (28 - 7*(more+1)),?_,?_⟩
  · rw [accumulate (by omega) below (by rw [payload]; exact digit),payload]
  · conv_lhs => unfold readGroups
    simp only [found,topBit,zero,decide_eq_true_eq,Bool.and_eq_true]
    split
    · split
      · constructor
        · intro h; cases h
        · rintro (⟨_,h,_⟩ | ⟨h,_⟩) <;> omega
      · rw [Prod.mk.injEq,Except.ok.injEq]
        constructor
        · rintro ⟨rfl,rfl⟩
          exact Or.inl ⟨by assumption,by omega,rfl,rfl⟩
        · rintro (⟨_,_,rfl,rfl⟩ | ⟨h,_⟩)
          · exact ⟨rfl,rfl⟩
          · omega
    · constructor
      · intro h
        exact Or.inr ⟨by omega,h⟩
      · rintro (⟨h,_⟩ | ⟨_,h⟩)
        · omega
        · exact h

theorem groupsPower (more) (few : more < 4) :
    2^(28 - 7*more) = 128 * 2^(28 - 7*(more+1)) ∧ 2^(4 + 7*(more+1)) = 128 * 2^(4 + 7*more) ∧
      2^(4 + 7*(more+1)) ≤ 2^32 := by
  have shift : 28 - 7*more = 7 + (28 - 7*(more+1)) := by omega
  have width : 4 + 7*(more+1) = 7 + (4 + 7*more) := by omega
  refine ⟨?_,?_,Nat.pow_le_pow_right (by decide) (by omega)⟩
  · rw [shift,Nat.pow_add]
  · rw [width,Nat.pow_add]

theorem groupsLast {bytes start offset result value stop} (below : result.toNat < 2^28) :
    readGroups bytes start 0 offset result = (.ok value,stop) ↔ Groups bytes 0 offset result value stop := by
  constructor
  · intro h
    cases found : bytes[offset]? with
    | none => unfold readGroups at h; rw [found] at h; cases h
    | some b =>
      obtain ⟨low,high,sum,rfl⟩ := (readLast found below).mp h
      have word : writeGroups 1 b.toUInt32 = [b] := writeGroupsWord 0 _ b (by omega) (by simp)
      refine ⟨b.toUInt32,bytes.drop (offset+1),by simp; omega,?_,by simpa using sum,?_,by rw [word]; rfl⟩
      · rintro _ zero
        have : b.toUInt32.toNat = 0 := by rw [zero]; rfl
        simp at this
        omega
      · rw [word,dropOf found]
        rfl
  · rintro ⟨r,tail,small,nonzero,sum,here,rfl⟩
    have positive : r.toNat ≠ 0 := fun zero => nonzero (by decide) (UInt32.toNat_inj.mp zero)
    have fits : (UInt8.ofNat r.toNat).toNat = r.toNat := by
      rw [UInt8.toNat_ofNat']
      omega
    have word : writeGroups 1 r = [UInt8.ofNat r.toNat] := writeGroupsWord 0 r _ (by omega) fits.symm
    rw [word] at here ⊢
    refine (readLast (dropHead here).1 below).mpr ⟨by omega,by omega,?_,rfl⟩
    rw [fits]
    simpa using sum

theorem groupsStep {bytes more offset result next value stop b} (found : bytes[offset]? = some b) (few : more < 4)
    (nextValue : next.toNat = result.toNat + b.toNat % 128 * 2^(28 - 7*(more+1))) :
    Groups bytes (more+1) offset result value stop ↔
      (b.toNat < 128 ∧ (b.toNat = 0 → more = 3) ∧ value = next ∧ stop = offset+1) ∨
      (128 ≤ b.toNat ∧ Groups bytes more (offset+1) next value stop) := by
  obtain ⟨shift,width,bound⟩ := groupsPower more few
  have widthLow : 128 ≤ 2^(4 + 7*(more+1)) := by
    have := Nat.one_le_two_pow (n := 4 + 7*more)
    omega
  constructor
  · rintro ⟨r,tail,small,nonzero,sum,here,rfl⟩
    rcases Nat.lt_or_ge r.toNat 128 with one | many
    · have fits : (UInt8.ofNat r.toNat).toNat = r.toNat := by
        rw [UInt8.toNat_ofNat']
        omega
      have word : writeGroups (more+1+1) r = [UInt8.ofNat r.toNat] := writeGroupsWord _ r _ (by omega) fits.symm
      rw [word] at here ⊢
      have same : b = UInt8.ofNat r.toNat := Option.some.inj (found.symm.trans (dropHead here).1)
      have value' : b.toNat = r.toNat := by rw [same,fits]
      refine Or.inl ⟨by omega,?_,?_,rfl⟩
      · intro zero
        by_contra other
        exact nonzero (by omega) (UInt32.toNat_inj.mp (by rw [← value',zero]; rfl))
      · apply UInt32.toNat_inj.mp
        rw [sum,nextValue,value',Nat.mod_eq_of_lt one]
    · have rest := shiftSeven r
      have word : writeGroups (more+1+1) r = UInt8.ofNat (r.toNat % 128 + 128) :: writeGroups (more+1) (r >>> 7) := by
        rw [writeGroupsStep,if_neg (by omega)]
      rw [word] at here ⊢
      obtain ⟨head,after⟩ := dropHead here
      have same : b = UInt8.ofNat (r.toNat % 128 + 128) := Option.some.inj (found.symm.trans head)
      have value' : b.toNat = r.toNat % 128 + 128 := by
        rw [same,UInt8.toNat_ofNat']
        omega
      refine Or.inr ⟨by omega,r >>> 7,tail,by omega,?_,?_,after,?_⟩
      · rintro _ zero
        have : (r >>> 7).toNat = 0 := by rw [zero]; rfl
        omega
      · have split : r.toNat = b.toNat % 128 + 128 * (r >>> 7).toNat := by omega
        rw [sum,nextValue,shift,split]
        ring
      · rw [List.length_cons]
        omega
  · rintro (⟨small,zero,rfl,rfl⟩ | ⟨top,r,tail,small,nonzero,sum,here,rfl⟩)
    · have word : writeGroups (more+1+1) b.toUInt32 = [b] := writeGroupsWord _ _ b small (by simp)
      refine ⟨b.toUInt32,bytes.drop (offset+1),by simp; omega,?_,?_,?_,by rw [word]; rfl⟩
      · intro less none
        have : b.toUInt32.toNat = 0 := by rw [none]; rfl
        have := zero (by simpa using this)
        omega
      · rw [nextValue,Nat.mod_eq_of_lt small,UInt8.toNat_toUInt32]
      · rw [word,dropOf found]
        rfl
    · have whole : (UInt32.ofNat (b.toNat % 128 + 128 * r.toNat)).toNat = b.toNat % 128 + 128 * r.toNat :=
        UInt32.toNat_ofNat_of_lt' (by rw [UInt32.size]; omega)
      have word := writeGroupsMore (more+1) _ r b top (nonzero few) whole
      refine ⟨UInt32.ofNat (b.toNat % 128 + 128 * r.toNat),tail,by omega,?_,?_,?_,?_⟩
      · intro _ none
        have : (UInt32.ofNat (b.toNat % 128 + 128 * r.toNat)).toNat = 0 := by rw [none]; rfl
        have : r.toNat ≠ 0 := fun zero => nonzero few (UInt32.toNat_inj.mp zero)
        omega
      · rw [sum,nextValue,whole,shift]
        ring
      · rw [word,dropOf found,here]
        rfl
      · rw [word,List.length_cons]
        omega

theorem groupsExact {bytes start} (more) {offset result value stop} (few : more ≤ 4) (below : result.toNat < 2^(28 - 7*more)) (first : start ≤ offset)
    (opening : more = 4 ↔ offset = start) :
    readGroups bytes start more offset result = (.ok value,stop) ↔ Groups bytes more offset result value stop := by
  induction more generalizing offset result with
  | zero => exact groupsLast below
  | succ more ih =>
    obtain ⟨shift,width,bound⟩ := groupsPower more (by omega)
    cases found : bytes[offset]? with
    | none =>
      constructor
      · intro h
        unfold readGroups at h; rw [found] at h; cases h
      · rintro ⟨r,tail,_,_,_,here,_⟩
        obtain ⟨b,others,word⟩ := writeGroupsHead (more+1) r
        rw [word,List.cons_append] at here
        rw [(dropHead here).1] at found
        cases found
    | some b =>
      obtain ⟨next,nextValue,step⟩ := readMore (v := value) (e := stop) found (by omega) below first
      have digit : b.toNat % 128 ≤ 127 := Nat.le_of_lt_succ (Nat.mod_lt _ (by decide))
      have nextBelow : next.toNat < 2^(28 - 7*more) := by
        have := Nat.mul_le_mul_right (2^(28 - 7*(more+1))) digit
        omega
      rw [step,groupsStep found (by omega) nextValue,ih (by omega) nextBelow (by omega) (by omega)]
      have same : offset = start ↔ more = 3 := by omega
      rw [same]

theorem readLeb128Exact {bytes offset stop value} :
    readLeb128 bytes offset = (.ok value,stop) ↔
      ∃ tail, bytes.drop offset = writeU32 value ++ tail ∧ stop = offset + (writeU32 value).length := by
  unfold readLeb128
  rw [groupsExact 4 (by decide) (by decide) (Nat.le_refl _) (by simp)]
  constructor
  · rintro ⟨r,tail,_,_,sum,here,rfl⟩
    have same : value = r := UInt32.toNat_inj.mp (by simpa using sum)
    rw [same]
    exact ⟨tail,here,rfl⟩
  · rintro ⟨tail,here,rfl⟩
    exact ⟨value,tail,value.toNat_lt,by simp,by simp,here,rfl⟩

theorem readsU32 {σ ε} [Buffered σ] {r : StateT σ (Except ε) UInt32}
    (good : ∀ s v n, readLeb128 (Buffered.bytes s) (Buffered.offset s) = (.ok v,Buffered.offset s + n) → r s = .ok (v,Cursor.advance n s))
    (bad : ∀ s e stop, readLeb128 (Buffered.bytes s) (Buffered.offset s) = (.error e,stop) → ∀ x, r s ≠ .ok x) :
    Reads r (plain fun v word => word = writeU32 v) := by
  refine Reads.intro ?_ ?_
  · intro s v s' _ h
    rcases found : readLeb128 (Buffered.bytes s) (Buffered.offset s) with ⟨e | value,stop⟩
    · exact absurd h (bad s e stop found _)
    · obtain ⟨tail,here,rfl⟩ := readLeb128Exact.mp found
      rw [good s value _ found] at h
      cases h
      exact ⟨_,tail,rfl,by rw [Buffered.restIs,here],rfl⟩
  · intro s v word tail _ spelled here
    subst spelled
    rw [Buffered.restIs] at here
    exact good s v _ (readLeb128Exact.mpr ⟨tail,here,rfl⟩)

end Bamts.Leb128
