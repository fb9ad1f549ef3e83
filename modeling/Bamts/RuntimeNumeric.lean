import Bamts.RuntimeArray
import Bamts.RuntimeLiteral

/-! The texts the number parser reads as anything but NaN, between white space of the language and of the
standard library. -/
set_option linter.all false
namespace Bamts.Runtime
open Bytecode Binary64 Linkage Strip

def isEcmaWhitespace (unit : UInt16) : Bool :=
  9 ≤ unit && unit ≤ 13 || 0x2000 ≤ unit && unit ≤ 0x200a ||
  [0x20,0xa0,0x1680,0x2028,0x2029,0x202f,0x205f,0x3000,0xfeff].contains unit

-- `StringNumericLiteral` of the language.
def StringNumericLiteral (text : EcmaString) : Prop :=
  Literal.Plain (strip isEcmaWhitespace text.asUnits) ∨ Literal.NonDecimal (strip isEcmaWhitespace text.asUnits)

namespace Literal

def Graphic (u : UInt16) : Prop := 33 ≤ u.toNat ∧ u.toNat ≤ 126

theorem digitGraphic {u} (digit : isDigit u = true) : Graphic u := by
  simp only [isDigit,Bool.and_eq_true,decide_eq_true_eq,UInt16.le_iff_toNat_le,UInt16.reduceToNat] at digit
  exact ⟨by omega,by omega⟩

theorem letterGraphic {u} (low : 97 ≤ (lowercase u).toNat) (high : (lowercase u).toNat ≤ 122) : Graphic u := by
  unfold lowercase at low high
  split at low
  · rename_i capital
    simp only [Bool.and_eq_true,decide_eq_true_eq,UInt16.le_iff_toNat_le,UInt16.reduceToNat] at capital
    exact ⟨by omega,by omega⟩
  · rename_i other
    rw [if_neg other] at high
    exact ⟨by omega,by omega⟩

theorem Signed.graphic {text} (body : ∀ rest, text rest → ∀ u ∈ rest, Graphic u) (signed : Signed text units) :
    ∀ u ∈ units, Graphic u := by
  obtain ⟨sign,rest,known,is,rfl⟩ := signed
  intro u at_
  rw [List.mem_append] at at_
  rcases at_ with at_ | at_
  · simp only [List.mem_cons,List.not_mem_nil,or_false] at known
    rcases known with rfl | rfl | rfl
    · cases at_
    · rw [List.mem_singleton.mp at_]
      exact ⟨by decide,by decide⟩
    · rw [List.mem_singleton.mp at_]
      exact ⟨by decide,by decide⟩
  · exact body rest is u at_

theorem exponentGraphic (part : ExponentPart exponent) : ∀ u ∈ exponent, Graphic u := by
  cases part with
  | none =>
    intro u at_
    cases at_
  | some mark letter digits =>
    intro u at_
    rcases List.mem_cons.mp at_ with rfl | at_
    · rcases letter with rfl | rfl
      · exact ⟨by decide,by decide⟩
      · exact ⟨by decide,by decide⟩
    · exact digits.graphic (fun rest digits u at_ => digitGraphic (digits.2 u at_)) u at_

theorem decimalGraphic (decimal : UnsignedDecimal body) : ∀ u ∈ body, Graphic u := by
  have point : Graphic 46 := ⟨by decide,by decide⟩
  intro u at_
  cases decimal with
  | whole digits part =>
    rw [List.mem_append] at at_
    rcases at_ with at_ | at_
    · exact digitGraphic (digits.2 u at_)
    · exact exponentGraphic part u at_
  | point digits fraction part =>
    rw [List.mem_append,List.mem_cons,List.mem_append] at at_
    rcases at_ with at_ | rfl | at_ | at_
    · exact digitGraphic (digits.2 u at_)
    · exact point
    · exact digitGraphic (fraction u at_)
    · exact exponentGraphic part u at_
  | fraction digits part =>
    rw [List.mem_cons,List.mem_append] at at_
    rcases at_ with rfl | at_ | at_
    · exact point
    · exact digitGraphic (digits.2 u at_)
    · exact exponentGraphic part u at_

theorem wordGraphic (word : infinityWord body) : ∀ u ∈ body, Graphic u := by
  have letters : ∀ v ∈ (ascii "infinity").asUnits, 97 ≤ v.toNat ∧ v.toNat ≤ 122 := List.forall_iff_forall_mem.mp (by decide)
  have short : ∀ v ∈ (ascii "inf").asUnits, 97 ≤ v.toNat ∧ v.toNat ≤ 122 := List.forall_iff_forall_mem.mp (by decide)
  intro u at_
  have mapped : lowercase u ∈ body.map lowercase := List.mem_map_of_mem at_
  rcases word with word | word
  · have range := short _ (word ▸ mapped)
    exact letterGraphic range.1 range.2
  · have range := letters _ (word ▸ mapped)
    exact letterGraphic range.1 range.2

theorem readsGraphic (reads : Reads body) : ∀ u ∈ body, Graphic u := by
  rcases reads with word | decimal
  · exact wordGraphic word
  · exact decimalGraphic decimal

theorem radixKnown (known : radixDigit mark = some digit) :
    mark ∈ [120,88,111,79,98,66] ∧ ∀ u, digit u = true → hexDigit u = true := by
  have decimal : ∀ high, high ≤ 57 → ∀ u, (48 ≤ u && u ≤ high) = true → hexDigit u = true := by
    intro high short u range
    simp only [hexDigit,isDigit,Bool.or_eq_true,Bool.and_eq_true,decide_eq_true_eq,UInt16.le_iff_toNat_le,UInt16.reduceToNat] at short range ⊢
    omega
  unfold radixDigit at known
  split at known
  · rename_i letter
    cases known
    exact ⟨by rcases letter with rfl | rfl <;> decide,fun _ kind => kind⟩
  · split at known
    · rename_i letter
      cases known
      exact ⟨by rcases letter with rfl | rfl <;> decide,decimal 55 (by decide)⟩
    · split at known
      · rename_i letter
        cases known
        exact ⟨by rcases letter with rfl | rfl <;> decide,decimal 49 (by decide)⟩
      · cases known

theorem hexGraphic {u} (hex : hexDigit u = true) : Graphic u := by
  simp only [hexDigit,isDigit,Bool.or_eq_true,Bool.and_eq_true,decide_eq_true_eq,UInt16.le_iff_toNat_le,UInt16.reduceToNat] at hex
  exact ⟨by omega,by omega⟩

theorem nonDecimalGraphic (literal : NonDecimal units) : ∀ u ∈ units, Graphic u := by
  cases literal with
  | @prefixed mark digit digits known some_ all =>
    obtain ⟨marks,hex⟩ := radixKnown known
    have letter : ∀ m ∈ [120,88,111,79,98,66], Graphic m := by
      simp only [Graphic]
      exact List.forall_iff_forall_mem.mp (by decide)
    intro u at_
    rw [List.mem_cons,List.mem_cons] at at_
    rcases at_ with rfl | rfl | at_
    · exact ⟨by decide,by decide⟩
    · exact letter u marks
    · exact hexGraphic (hex u (all u at_))

theorem plainOrMiscased (units) : units = [] ∨ Signed Reads units ↔ Plain units ∨ Miscased units := by
  have same : Signed Reads units ↔ StrDecimal units ∨ Miscased units := by
    rw [StrDecimal,Miscased,← signedOr]
    constructor
    · refine Signed.weaken ?_
      rintro body (word | decimal)
      · by_cases exact_ : body = infinity
        · exact Or.inl (Or.inl exact_)
        · exact Or.inr ⟨word,exact_⟩
      · exact Or.inl (Or.inr decimal)
    · refine Signed.weaken ?_
      rintro body ((rfl | decimal) | ⟨word,_⟩)
      · exact Or.inl (Or.inr (by decide))
      · exact Or.inr decimal
      · exact Or.inl word
  rw [same,Plain,or_assoc]

theorem StrDecimal.reads (decimal : StrDecimal units) : Signed Reads units := by
  refine Signed.weaken ?_ decimal
  rintro body (rfl | decimal)
  · exact Or.inl (Or.inr (by decide))
  · exact Or.inr decimal

theorem miscasedNotPlain (miscased : Miscased units) : ¬Plain units := by
  have word : infinityWord (takeSign units).2 ∧ (takeSign units).2 ≠ infinity :=
    (signedIs (fun rest word => readsUnsigned.1 rest (Or.inl word.1)) (fun rest word => readsUnsigned.2 rest (Or.inl word.1))).mp miscased
  rintro (rfl | decimal)
  · obtain ⟨_,_,split,_⟩ := wordFirst word.1
    cases split
  · have body : (takeSign units).2 = infinity ∨ UnsignedDecimal (takeSign units).2 := by
      refine (signedIs ?_ ?_).mp decimal
      all_goals
        rintro rest (word | decimal)
        · cases word
      · exact readsUnsigned.1 rest (Or.inr decimal)
      · exact readsUnsigned.2 rest (Or.inr decimal)
    rcases body with exact_ | decimal
    · exact word.2 exact_
    · exact (decimalNoWord decimal).1 word.1

theorem nonDecimalUnread (literal : NonDecimal units) : units ≠ [] ∧ ¬Signed Reads units := by
  cases literal with
  | @prefixed mark digit digits known some_ all =>
    have other : ∀ m ∈ [120,88,111,79,98,66], lowercase m ≠ 101 ∧ m ≠ 46 ∧ isDigit m = false :=
      List.forall_iff_forall_mem.mp (by decide)
    obtain ⟨noExponent,noPoint,noDigit⟩ := other mark (radixKnown known).1
    refine ⟨List.cons_ne_nil _ _,?_⟩
    rw [signedIs readsUnsigned.1 readsUnsigned.2]
    rintro (word | decimal)
    · obtain ⟨_,_,split,letter⟩ := wordFirst word
      cases split
      exact absurd letter (by decide)
    · have reads := (readsDecimal.mpr decimal).2
      have drops : (48 :: mark :: digits).dropWhile isDigit = mark :: digits := by
        rw [List.dropWhile_cons_of_pos (by decide),List.dropWhile_cons_of_neg (Bool.eq_false_iff.mp noDigit)]
      have parts : restParts (mark :: digits) = ([],mark :: digits) := by
        obtain ⟨_,split,_⟩ | parts := restPartsCases (mark :: digits)
        · cases split
          exact absurd rfl noPoint
        · exact parts
      change ExponentPart (restParts ((48 :: mark :: digits).dropWhile isDigit)).2 at reads
      rw [drops,parts] at reads
      cases reads with
      | some _ letter _ => exact noExponent ((exponentMark mark).mpr letter)

end Literal
theorem rustSpaces (u) : isWhitespace u = true ↔
    9 ≤ u.toNat ∧ u.toNat ≤ 13 ∨ 0x2000 ≤ u.toNat ∧ u.toNat ≤ 0x200a ∨
    u.toNat ∈ [0x20,0x85,0xa0,0x1680,0x2028,0x2029,0x202f,0x205f,0x3000] := by
  simp only [isWhitespace,Bool.or_eq_true,Bool.and_eq_true,decide_eq_true_eq,UInt16.le_iff_toNat_le,UInt16.reduceToNat,List.contains_iff_mem,
    List.mem_cons,List.not_mem_nil,← UInt16.toNat_inj,or_assoc]

theorem ecmaSpaces (u) : isEcmaWhitespace u = true ↔
    9 ≤ u.toNat ∧ u.toNat ≤ 13 ∨ 0x2000 ≤ u.toNat ∧ u.toNat ≤ 0x200a ∨
    u.toNat ∈ [0x20,0xa0,0x1680,0x2028,0x2029,0x202f,0x205f,0x3000,0xfeff] := by
  simp only [isEcmaWhitespace,Bool.or_eq_true,Bool.and_eq_true,decide_eq_true_eq,UInt16.le_iff_toNat_le,UInt16.reduceToNat,List.contains_iff_mem,
    List.mem_cons,List.not_mem_nil,← UInt16.toNat_inj,or_assoc]

def isEitherSpace (u : UInt16) : Bool := isWhitespace u || isEcmaWhitespace u

theorem onlyMark (u) : (isEitherSpace u = true → isWhitespace u = true) ↔ u ≠ 0xfeff := by
  constructor
  · intro keeps mark
    subst mark
    exact absurd (keeps (by decide)) (by decide)
  · intro other either
    obtain white | ecma := (Bool.or_eq_true _ _).mp either
    · exact white
    obtain control | wide | listed := (ecmaSpaces u).mp ecma
    · exact (rustSpaces u).mpr (.inl control)
    · exact (rustSpaces u).mpr (.inr (.inl wide))
    · have lists : ∀ n ∈ [0x20,0xa0,0x1680,0x2028,0x2029,0x202f,0x205f,0x3000,0xfeff],
          n ∈ [0x20,0x85,0xa0,0x1680,0x2028,0x2029,0x202f,0x205f,0x3000] ∨ n = 0xfeff := by decide
      obtain kept | mark := lists u.toNat listed
      · exact (rustSpaces u).mpr (.inr (.inr kept))
      · exact absurd (UInt16.toNat_inj.mp mark) other

theorem onlyNextLine (u) : (isEitherSpace u = true → isEcmaWhitespace u = true) ↔ u ≠ 0x85 := by
  constructor
  · intro keeps next
    subst next
    exact absurd (keeps (by decide)) (by decide)
  · intro other either
    obtain white | ecma := (Bool.or_eq_true _ _).mp either
    · obtain control | wide | listed := (rustSpaces u).mp white
      · exact (ecmaSpaces u).mpr (.inl control)
      · exact (ecmaSpaces u).mpr (.inr (.inl wide))
      have lists : ∀ n ∈ [0x20,0x85,0xa0,0x1680,0x2028,0x2029,0x202f,0x205f,0x3000],
          n ∈ [0x20,0xa0,0x1680,0x2028,0x2029,0x202f,0x205f,0x3000,0xfeff] ∨ n = 0x85 := by decide
      obtain kept | next := lists u.toNat listed
      · exact (ecmaSpaces u).mpr (.inr (.inr kept))
      · exact absurd (UInt16.toNat_inj.mp next) other
    · exact ecma

theorem graphicClean {u} (graphic : Literal.Graphic u) : isEitherSpace u = false := by
  obtain ⟨low,high⟩ := graphic
  rw [Bool.eq_false_iff,isEitherSpace,ne_eq,Bool.or_eq_true,rustSpaces,ecmaSpaces]
  simp only [List.mem_cons,List.not_mem_nil,or_false]
  omega

def Scalar (u : UInt16) : Prop := isHighSurrogate u = false ∧ isLowSurrogate u = false

theorem scalarOf {u} (other : u.toNat < 0xd800 ∨ 0xdfff < u.toNat) : Scalar u := by
  constructor
  · simp only [isHighSurrogate,Bool.and_eq_false_iff,decide_eq_false_iff_not,UInt16.le_iff_toNat_le,UInt16.reduceToNat]
    omega
  · simp only [isLowSurrogate,Bool.and_eq_false_iff,decide_eq_false_iff_not,UInt16.le_iff_toNat_le,UInt16.reduceToNat]
    omega

theorem spaceScalar {u} (space : isEitherSpace u = true) : Scalar u := by
  rw [isEitherSpace,Bool.or_eq_true,rustSpaces,ecmaSpaces] at space
  simp only [List.mem_cons,List.not_mem_nil,or_false] at space
  exact scalarOf (by omega)

theorem scalarsWellFormed {units} (scalars : ∀ u ∈ units, Scalar u) : wellFormedUnits units = true := by
  fun_induction wellFormedUnits units with
  | case1 => rfl
  | case2 unit =>
    obtain ⟨high,low⟩ := scalars unit (List.mem_cons_self ..)
    rw [high,low]
    rfl
  | case3 unit next rest high ih =>
    rw [(scalars unit (List.mem_cons_self ..)).1] at high
    cases high
  | case4 unit next rest high ih =>
    rw [(scalars unit (List.mem_cons_self ..)).2,ih fun u at_ => scalars u (List.mem_cons_of_mem _ at_)]
    rfl

theorem strippedWellFormed {text} (graphic : ∀ u ∈ strip isEitherSpace text.asUnits, Literal.Graphic u) :
    isWellFormed text = true := by
  obtain ⟨front,back,before,after,split⟩ := splits isEitherSpace text.asUnits
  rw [isWellFormed,split]
  refine scalarsWellFormed fun u at_ => ?_
  rw [List.mem_append,List.mem_append] at at_
  rcases at_ with (at_ | at_) | at_
  · exact spaceScalar (before u at_)
  · exact scalarOf (Or.inl (by have := (graphic u at_).2; omega))
  · exact spaceScalar (after u at_)

theorem stripsTo {p other} (units) (kind : List UInt16 → Prop)
    (less : ∀ u, p u = true → isEitherSpace u = true) (only : ∀ u, (isEitherSpace u = true → p u = true) ↔ u ≠ other)
    (graphic : ∀ rest, kind rest → ∀ u ∈ rest, Literal.Graphic u) :
    kind (strip p units) ↔ kind (strip isEitherSpace units) ∧ other ∉ units := by
  have absent : (∀ u ∈ units, isEitherSpace u = true → p u = true) ↔ other ∉ units := by
    simp only [only]
    exact ⟨fun all at_ => all other at_ rfl,fun none u at_ same => none (same ▸ at_)⟩
  have clean : ∀ rest, kind rest → ∀ u ∈ rest, isEitherSpace u = false := fun rest is u at_ => graphicClean (graphic rest is u at_)
  rw [← absent]
  constructor
  · intro is
    obtain ⟨same,all⟩ := (stripLess less (clean _ is)).mp rfl
    exact ⟨same ▸ is,all⟩
  · rintro ⟨is,all⟩
    have same := (stripLess less (clean _ is)).mpr ⟨rfl,all⟩
    exact same.symm ▸ is

theorem emptyOrGraphic {kind : List UInt16 → Prop} (graphic : ∀ rest, kind rest → ∀ u ∈ rest, Literal.Graphic u) :
    ∀ rest, rest = [] ∨ kind rest → ∀ u ∈ rest, Literal.Graphic u := by
  rintro rest (rfl | is) u at_
  · cases at_
  · exact graphic rest is u at_

theorem signedGraphic (rest) (signed : Literal.Signed Literal.Reads rest) : ∀ u ∈ rest, Literal.Graphic u :=
  signed.graphic fun _ => Literal.readsGraphic

theorem parsedPlain (text) : (parseNumber text).isNaN = false ↔
    (Literal.Plain (strip isEitherSpace text.asUnits) ∨ Literal.Miscased (strip isEitherSpace text.asUnits)) ∧ 0xfeff ∉ text.asUnits := by
  have stripped := stripsTo text.asUnits (fun rest => rest = [] ∨ Literal.Signed Literal.Reads rest)
    (fun u (space : isWhitespace u = true) => by rw [isEitherSpace,space]; rfl) onlyMark (emptyOrGraphic signedGraphic)
  rw [← Literal.plainOrMiscased,← stripped]
  unfold parseNumber
  split
  · rename_i illFormed
    refine iff_of_false (by decide) fun is => ?_
    rw [strippedWellFormed (emptyOrGraphic signedGraphic _ (stripped.mp is).1)] at illFormed
    cases illFormed
  · dsimp only
    split
    · rename_i empty
      exact iff_of_true rfl (Or.inl (List.isEmpty_iff.mp empty))
    · rename_i some_
      rw [← Literal.parseF64Reads]
      exact ⟨Or.inr,fun is => is.resolve_left fun none => some_ (List.isEmpty_iff.mpr none)⟩

theorem literalStripped (text) : StringNumericLiteral text ↔
    (Literal.Plain (strip isEitherSpace text.asUnits) ∨ Literal.NonDecimal (strip isEitherSpace text.asUnits)) ∧ 0x85 ∉ text.asUnits := by
  have graphic : ∀ rest, Literal.StrDecimal rest ∨ Literal.NonDecimal rest → ∀ u ∈ rest, Literal.Graphic u := by
    rintro rest (decimal | literal)
    · exact signedGraphic rest decimal.reads
    · exact Literal.nonDecimalGraphic literal
  have stripped := stripsTo text.asUnits (fun rest => rest = [] ∨ Literal.StrDecimal rest ∨ Literal.NonDecimal rest)
    (fun u (space : isEcmaWhitespace u = true) => by rw [isEitherSpace,space,Bool.or_true]) onlyNextLine (emptyOrGraphic graphic)
  rw [StringNumericLiteral,Literal.Plain,Literal.Plain,or_assoc,or_assoc]
  exact stripped

theorem numericLiteralsRead (text : EcmaString) : ((parseNumber text).isNaN = false ↔ StringNumericLiteral text) ↔
    (Literal.Plain (strip isEitherSpace text.asUnits) → (0xfeff ∈ text.asUnits ↔ 0x85 ∈ text.asUnits)) ∧
    (Literal.Miscased (strip isEitherSpace text.asUnits) → 0xfeff ∈ text.asUnits) ∧
    (Literal.NonDecimal (strip isEitherSpace text.asUnits) → 0x85 ∈ text.asUnits) := by
  rw [parsedPlain,literalStripped]
  generalize strip isEitherSpace text.asUnits = stripped
  have miscased := @Literal.miscasedNotPlain stripped
  have prefixed : Literal.NonDecimal stripped → ¬(Literal.Plain stripped ∨ Literal.Miscased stripped) := by
    rw [← Literal.plainOrMiscased]
    intro literal
    obtain ⟨some_,unread⟩ := Literal.nonDecimalUnread literal
    exact not_or.mpr ⟨some_,unread⟩
  by_cases plain : Literal.Plain stripped
  · have cased : ¬Literal.Miscased stripped := fun cased => miscased cased plain
    have other : ¬Literal.NonDecimal stripped := fun literal => prefixed literal (.inl plain)
    simp only [plain,cased,other,true_or,true_and,forall_const,false_imp_iff,and_true,not_iff_not]
  by_cases cased : Literal.Miscased stripped
  · have other : ¬Literal.NonDecimal stripped := fun literal => prefixed literal (.inr cased)
    simp only [plain,cased,other,or_true,or_self,true_and,false_and,iff_false,not_not,false_imp_iff,forall_const,and_true]
  · simp only [plain,cased,false_or,or_self,false_and,false_iff,not_and,not_not,false_imp_iff,true_and]

theorem hexUnread : ¬((parseNumber (ascii "0x10")).isNaN = false ↔ StringNumericLiteral (ascii "0x10")) := by
  intro reads
  have stripped : strip isEcmaWhitespace (ascii "0x10").asUnits = [48,120,49,48] := by decide
  have literal : StringNumericLiteral (ascii "0x10") := by
    rw [StringNumericLiteral,stripped]
    exact Or.inr (Literal.NonDecimal.prefixed rfl (List.cons_ne_nil _ _) (List.forall_iff_forall_mem.mp (by decide)))
  have unread : (parseNumber (ascii "0x10")).isNaN = true := by decide
  rw [reads.mpr literal] at unread
  cases unread

end Bamts.Runtime
