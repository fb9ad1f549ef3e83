import Bamts.RegexpSyntax
import Bamts.RegexpPlaced

/-! What the parser reads of a written pattern, piece by piece: characters, class items, classes and quantifiers. -/
set_option linter.all false
namespace Bamts.Regexp.Parse
open Effect

def Reads {α : Type} (p : Parse α) (text rest : List Nat) (a : α) : Prop :=
  ∀ position count names, p ⟨position,text ++ rest,count,names⟩ = .ok a ⟨position+text.length,rest,count,names⟩

def Misses {α : Type} (p : Parse α) (left : List Nat) (bad : α → Prop) : Prop :=
  ∀ position count names a t, p ⟨position,left,count,names⟩ = .ok a t → bad a

section
variable {α β : Type} {p : Parse α} {f : α → Parse β} {text text' rest left : List Nat} {a : α} {b : β} {token : Nat}

theorem Reads.bind (first : Reads p text (text' ++ rest) a) (later : Reads (f a) text' rest b) : Reads (p >>= f) (text ++ text') rest b := by
  intro position count names
  rw [List.append_assoc,doneBind (first position count names),later,List.length_append,Nat.add_assoc]

theorem Reads.last (first : Reads p text rest a) (later : Reads (f a) [] rest b) : Reads (p >>= f) text rest b := by
  have both := @Reads.bind _ _ p f text [] rest a b first later
  rw [List.append_nil] at both
  exact both

theorem readsPure (a : α) (rest) : Reads (pure a) [] rest a := fun _ _ _ => rfl

theorem readsPeek (rest) : Reads peek [] rest rest.head? := fun _ _ _ => rfl

theorem readsSkip (text rest) : Reads (skip text.length) text rest () := by
  intro position count names
  simp [skip,update]

theorem readsSkipOne (token rest) : Reads (skip 1) [token] rest () := readsSkip [token] rest

theorem readsNext (token rest) : Reads next [token] rest (some token) := fun _ _ _ => rfl

theorem readsState {f} (later : ∀ position count names, Reads (f ⟨position,text ++ rest,count,names⟩) text rest b) :
    Reads (read >>= f) text rest b := fun position count names => later position count names position count names

theorem Reads.peeked {f} (later : Reads (f (text ++ rest).head?) text rest b) : Reads (peek >>= f) text rest b :=
  @Reads.bind _ _ peek f [] text rest _ b (readsPeek _) later

theorem Reads.after {f} (later : Reads (f (some token)) text rest b) : Reads (next >>= f) (token :: text) rest b :=
  @Reads.bind _ _ next f [token] text rest _ b (readsNext _ _) later

theorem Reads.skipped {f} (later : Reads (f ()) text rest b) : Reads (skip 1 >>= f) (token :: text) rest b :=
  @Reads.bind _ _ (skip 1) f [token] text rest _ b (readsSkipOne _ _) later

theorem Misses.read {bad} (first : Reads p text left a) (later : Misses (f a) left bad) : Misses (p >>= f) (text ++ left) bad := by
  intro position count names b t done
  rw [doneBind (first position count names)] at done
  exact later _ _ _ _ _ done

theorem Misses.after {f : Option Nat → Parse β} {bad} (later : Misses (f (some token)) left bad) : Misses (next >>= f) (token :: left) bad :=
  Misses.read (readsNext token left) later

theorem Misses.skipped {f : Unit → Parse β} {bad} (later : Misses (f ()) left bad) : Misses (skip 1 >>= f) (token :: left) bad :=
  Misses.read (readsSkipOne token left) later

theorem Misses.peeked {f : Option Nat → Parse β} {bad} (later : Misses (f left.head?) left bad) : Misses (peek >>= f) left bad :=
  Misses.read (readsPeek left) later

theorem missesError (message left) (bad : α → Prop) : Misses (error message) left bad := by
  intro position count names a t done
  cases done

theorem missesPure {bad} (holds : bad a) (left) : Misses (pure a) left bad := by
  intro position count names b t done
  cases done
  exact holds

theorem Reads.done {g : α → β} (first : Reads p text rest a) : Reads (p >>= fun a => pure (g a)) text rest (g a) := first.last (readsPure (g a) rest)

end

section
variable {unicode inClass : Bool} {rest digits : List Nat} {value : Nat}

theorem hexValueFold (digits value) (hex : isHexDigits digits = true) :
    digits.foldl (fun value digit => do return (← value)*16+(← hexDigit digit)) (some value) =
      some (digits.foldl (fun value digit => value*16+(hexDigit digit).getD 0) value) := by
  induction digits generalizing value with
  | nil => rfl
  | cons digit digits ih =>
    simp only [isHexDigits,List.all_cons,Bool.and_eq_true] at hex
    obtain ⟨number,known⟩ := Option.isSome_iff_exists.mp hex.1
    rw [List.foldl_cons,List.foldl_cons,known]
    exact ih _ hex.2

theorem hexValueDigits (hex : isHexDigits digits = true) : hexValue digits = some (hexNumber digits) := by
  unfold hexNumber hexValue
  rw [hexValueFold digits 0 hex]
  rfl

theorem readsHex (hex : isHexDigits digits = true) (rest) : Reads (hexEscape digits.length) digits rest (hexNumber digits) := by
  refine readsState fun position count names => ?_
  rw [if_neg (by simp),List.take_left,hexValueDigits hex]
  exact (readsSkip digits rest).done (g := fun _ => hexNumber digits)

theorem hexFoldLe (digits : List Nat) (value) : value ≤ digits.foldl (fun value digit => value*16+(hexDigit digit).getD 0) value := by
  induction digits generalizing value with
  | nil => exact Nat.le_refl _
  | cons digit digits ih =>
    have later := ih (value*16+(hexDigit digit).getD 0)
    exact Nat.le_trans (by omega) later

theorem radixFold (digits value) (hex : isHexDigits digits = true)
    (small : digits.foldl (fun value digit => value*16+(hexDigit digit).getD 0) value < 2^32) :
    digits.foldl (fun value digit => do
      let value ← value
      let digit ← hexDigit digit
      if value*16+digit < 2^32 then some (value*16+digit) else none) (some value) =
      some (digits.foldl (fun value digit => value*16+(hexDigit digit).getD 0) value) := by
  induction digits generalizing value with
  | nil => rfl
  | cons digit digits ih =>
    simp only [isHexDigits,List.all_cons,Bool.and_eq_true] at hex
    obtain ⟨number,known⟩ := Option.isSome_iff_exists.mp hex.1
    rw [List.foldl_cons,known] at small
    have below : value*16+number < 2^32 := Nat.lt_of_le_of_lt (hexFoldLe digits _) small
    rw [List.foldl_cons,List.foldl_cons,known]
    simp only [bind,Option.bind,Option.getD_some,if_pos below]
    exact ih _ hex.2 small

theorem fromStrRadix (some_ : digits ≠ []) (hex : isHexDigits digits = true) (small : hexNumber digits < 2^32) :
    fromStrRadix16 digits = some (hexNumber digits) := by
  have plain : digits.head? ≠ some 0x2b := by
    cases digits with
    | nil => exact fun same => by cases same
    | cons digit digits =>
      simp only [isHexDigits,List.all_cons,Bool.and_eq_true] at hex
      rintro ⟨⟩
      exact absurd hex.1 (by decide)
  have number : hexNumber digits = digits.foldl (fun value digit => value*16+(hexDigit digit).getD 0) 0 := by
    unfold hexNumber hexValue
    rw [hexValueFold digits 0 hex]
    rfl
  unfold fromStrRadix16
  rw [if_neg plain,if_neg (by simpa using some_),number]
  exact radixFold digits 0 hex (number ▸ small)

theorem takeWhileBefore (name : List Nat) (terminator rest) (clear : terminator ∉ name) :
    (name ++ terminator :: rest).takeWhile (fun token => decide (token ≠ terminator)) = name := by
  induction name with
  | nil => simp
  | cons token name ih =>
    have differ : token ≠ terminator := fun same => clear (same ▸ List.mem_cons_self)
    rw [List.cons_append,List.takeWhile_cons_of_pos (by simpa using differ),ih fun among => clear (List.mem_cons_of_mem _ among)]

theorem readsUntil {name terminator} (clear : terminator ∉ name) (formed : wellFormed name = true) (printable rest) :
    Reads (takeUntil terminator printable) (name ++ [terminator]) rest name := by
  refine readsState fun position count names => ?_
  rw [List.append_assoc,List.singleton_append,takeWhileBefore name terminator rest clear]
  refine Reads.bind (readsSkip name _) (Reads.after ?_)
  rw [if_neg (by simp),if_pos formed]
  exact readsPure name rest

theorem plainWellFormed (plain : ∀ unit ∈ digits, isHigh unit = false ∧ isLow unit = false) : wellFormed digits = true := by
  induction digits with
  | nil => rfl
  | cons unit digits ih =>
    obtain ⟨notHigh,notLow⟩ := plain unit List.mem_cons_self
    have later := ih fun u among => plain u (List.mem_cons_of_mem _ among)
    cases digits with
    | nil => simp [wellFormed,notHigh,notLow]
    | cons second rest => simp [wellFormed,notHigh,notLow,later]

theorem hexPlain (hex : isHexDigits digits = true) : ∀ unit ∈ digits, unit < 0x7d := by
  intro unit among
  have known := List.all_eq_true.mp hex unit among
  unfold hexDigit isAsciiDigit at known
  split at known
  · rename_i digit
    simp only [Bool.and_eq_true,decide_eq_true_eq] at digit
    omega
  · split at known
    · omega
    · split at known
      · omega
      · cases known

theorem readsDigits (hex : isHexDigits digits = true) (rest) : Reads (takeUntil 0x7d "\x7d") (digits ++ [0x7d]) rest digits :=
  readsUntil (fun among => absurd (hexPlain hex _ among) (by decide)) (plainWellFormed fun unit among => by
    have low := hexPlain hex unit among
    simp only [isHigh,isLow,Bool.and_eq_false_iff,decide_eq_false_iff_not]
    omega) _ rest

theorem readsBraced (some_ : digits ≠ []) (hex : isHexDigits digits = true) (small : hexNumber digits < 2^32) (scalar : isScalar (hexNumber digits) = true)
    (rest) : Reads bracedEscape (0x7b :: (digits ++ [0x7d])) rest (hexNumber digits) := by
  refine Reads.skipped ?_
  refine (readsDigits hex rest).last ?_
  rw [fromStrRadix some_ hex small]
  dsimp only
  rw [if_pos scalar]
  exact readsPure _ rest

theorem missesBraced (some_ : digits ≠ []) (hex : isHexDigits digits = true) (small : hexNumber digits < 2^32) (scalar : isScalar (hexNumber digits) = false)
    (rest bad) : Misses bracedEscape (0x7b :: (digits ++ [0x7d] ++ rest)) bad := by
  refine Misses.skipped (Misses.read (readsDigits hex rest) ?_)
  rw [fromStrRadix some_ hex small]
  dsimp only
  rw [if_neg (by rw [scalar]; decide)]
  exact missesError _ _ _

theorem Reads.caught {α} {p : Parse α} {text rest a} (reads : Reads p text rest a) (handler) :
    Reads (tryCatch p handler) text rest a := by
  intro position count names
  simp only [tryCatch,tryCatchThe,MonadExceptOf.tryCatch]
  delta EStateM.tryCatch
  rw [reads position count names]

theorem Reads.mapped {α β p text rest a} (reads : Reads p text rest a) (g : α → β) :
    Reads (g <$> p) text rest (g a) := by
  intro position count names
  simp only [Functor.map,EStateM.map,reads position count names]

theorem readsLow {low} (four : low.length = 4) (hex : isHexDigits low = true) (isLow_ : isLow (hexNumber low) = true) (rest) :
    Reads lowSurrogateEscape (0x5c :: 0x75 :: low) rest (some (hexNumber low)) := by
  refine Reads.after ?_
  refine Reads.after ?_
  have number := ((readsHex hex rest).mapped some).caught fun _ => (pure none : Parse (Option Nat))
  rw [four] at number
  refine number.last ?_
  dsimp only
  rw [if_pos isLow_]
  exact readsPure _ rest

theorem hexEscapeRuns (count s) : hexEscape count s = (if s.left.length < count then error "invalid hexadecimal escape"
    else match hexValue (s.left.take count) with
      | some value => do
        skip count
        return value
      | none => error "invalid hexadecimal escape" : Parse Nat) s := rfl

theorem hexEscapeEnds (count s) :
    (∃ value, hexValue (s.left.take count) = some value ∧ count ≤ s.left.length ∧
      hexEscape count s = .ok value { s with position := s.position+count,left := s.left.drop count }) ∨ ∃ e, hexEscape count s = .error e s := by
  rw [hexEscapeRuns]
  split
  · exact .inr ⟨_,rfl⟩
  · rename_i long
    cases known : hexValue (s.left.take count) with
    | some value => exact .inl ⟨value,rfl,Nat.le_of_not_lt long,rfl⟩
    | none => exact .inr ⟨_,rfl⟩

theorem catchOk {α} {p : Parse α} {s t a} (done : p s = .ok a t) (handler) : tryCatch p handler s = .ok a t := by
  simp only [tryCatch,tryCatchThe,MonadExceptOf.tryCatch]
  delta EStateM.tryCatch
  rw [done]

theorem catchError {α} {p : Parse α} {s t e} (failed : p s = .error e t) (handler) :
    tryCatch p handler s = handler e t := by
  simp only [tryCatch,tryCatchThe,MonadExceptOf.tryCatch]
  delta EStateM.tryCatch
  rw [failed]
  rfl

theorem mapOk {α β} {p : Parse α} {s t a} (done : p s = .ok a t) (g : α → β) : (g <$> p) s = .ok (g a) t := by
  simp only [Functor.map,EStateM.map,done]

theorem mapError {α β} {p : Parse α} {s t e} (failed : p s = .error e t) (g : α → β) : (g <$> p) s = .error e t := by
  simp only [Functor.map,EStateM.map,failed]

def Moved (s t : Parser) : Prop := t.captureCount = s.captureCount ∧ t.names = s.names

theorem lowEscapeRuns (position left count names) : lowSurrogateEscape ⟨position,0x5c :: 0x75 :: left,count,names⟩ =
    (tryCatch (some <$> hexEscape 4) (fun _ => pure none) >>= fun answer => (match answer with
      | some second => return if isLow second then some second else none
      | none => return none : Parse (Option Nat))) ⟨position+1+1,left,count,names⟩ := rfl

theorem noLow (s) (none_ : Spelling.lowEscapeAhead s.left = false) : ∃ t, lowSurrogateEscape s = .ok none t ∧ Moved s t := by
  obtain ⟨position,left,count,names⟩ := s
  cases left with
  | nil => exact ⟨_,rfl,rfl,rfl⟩
  | cons first left =>
    by_cases slash : first = 0x5c
    · subst slash
      cases left with
      | nil => exact ⟨_,rfl,rfl,rfl⟩
      | cons second left =>
        by_cases letter : second = 0x75
        · subst letter
          rw [lowEscapeRuns]
          rcases hexEscapeEnds 4 ⟨position+1+1,left,count,names⟩ with ⟨value,known,long,done⟩ | ⟨e,failed⟩
          · have notLow : isLow value = false := by
              simpa [Spelling.lowEscapeAhead,show hexValue (left.take 4) = some value from known,Nat.min_eq_left (show 4 ≤ left.length from long)] using none_
            refine ⟨⟨position+1+1+4,left.drop 4,count,names⟩,?_,rfl,rfl⟩
            rw [doneBind (catchOk (mapOk done some) _)]
            dsimp only
            rw [notLow]
            rfl
          · refine ⟨⟨position+1+1,left,count,names⟩,?_,rfl,rfl⟩
            rw [doneBind (catchError (mapError failed some) _ : _ = EStateM.Result.ok none _)]
            rfl
        · have stops : lowSurrogateEscape ⟨position,0x5c :: second :: left,count,names⟩ =
              (if some second = some 0x75 then _ else pure none : Parse (Option Nat)) ⟨position+1+1,left,count,names⟩ := rfl
          refine ⟨⟨position+1+1,left,count,names⟩,?_,rfl,rfl⟩
          rw [stops,if_neg (by simpa using letter)]
          rfl
    · have stops : lowSurrogateEscape ⟨position,first :: left,count,names⟩ =
          (if some first = some 0x5c then _ else pure none : Parse (Option Nat)) ⟨position+1,left,count,names⟩ := rfl
      refine ⟨⟨position+1,left,count,names⟩,?_,rfl,rfl⟩
      rw [stops,if_neg (by simpa using slash)]
      rfl

theorem restoredRuns (first position rest count names) : (read >>= fun checkpoint => lowSurrogateEscape >>= fun answer => (match answer with
    | some second => return combineSurrogates first second
    | none => do
      restore checkpoint
      return first : Parse Nat)) ⟨position,rest,count,names⟩ =
    (lowSurrogateEscape >>= fun answer => (match answer with
    | some second => return combineSurrogates first second
    | none => do
      restore ⟨position,rest,count,names⟩
      return first : Parse Nat)) ⟨position,rest,count,names⟩ := rfl

theorem readsUnicode (unicode) (four : digits.length = 4) (hex : isHexDigits digits = true)
    (alone : (unicode && isHigh (hexNumber digits) && Spelling.lowEscapeAhead rest) = false) :
    Reads (unicodeEscape unicode) digits rest (hexNumber digits) := by
  have number := ((readsHex hex rest).mapped (@Except.ok RegexError Nat)).caught fun failure => pure (Except.error failure)
  rw [four] at number
  refine number.last ?_
  dsimp only
  split
  · rename_i high
    rw [high,Bool.true_and] at alone
    intro position count names
    obtain ⟨t,looked,same,same'⟩ := noLow ⟨position,rest,count,names⟩ alone
    refine (restoredRuns (hexNumber digits) position rest count names).trans ?_
    rw [doneBind looked]
    obtain ⟨q,l,c,n⟩ := t
    obtain rfl : c = count := same
    obtain rfl : n = names := same'
    rfl
  · exact readsPure _ rest

theorem readsPair {high low} (four : high.length = 4) (hex : isHexDigits high = true) (isHigh_ : isHigh (hexNumber high) = true)
    (four' : low.length = 4) (hex' : isHexDigits low = true) (isLow_ : isLow (hexNumber low) = true) (rest) :
    Reads (unicodeEscape true) (high ++ 0x5c :: 0x75 :: low) rest (combineSurrogates (hexNumber high) (hexNumber low)) := by
  have number := ((readsHex hex (0x5c :: 0x75 :: low ++ rest)).mapped (@Except.ok RegexError Nat)).caught fun failure => pure (Except.error failure)
  rw [four] at number
  refine Reads.bind number ?_
  dsimp only
  rw [if_pos (by rw [isHigh_]; rfl)]
  refine readsState fun position count names => ?_
  refine (readsLow four' hex' isLow_ rest).last ?_
  exact readsPure _ rest

end

section
variable {unicode inClass : Bool} {rest tail : List Nat} {escaped value : Nat}

structure Routed (inClass : Bool) (escaped : Nat) : Prop where
  shared : escaped ∉ [0x64,0x44,0x77,0x57,0x73,0x53,0x62]
  outside : inClass = false → escaped ≠ 0x42 ∧ escaped ≠ 0x6b ∧ (isAsciiDigit escaped && decide (escaped ≠ 0x30)) = false

theorem routedCharacter (among : escaped ∈ [0x6e,0x72,0x74,0x66,0x76,0x30,0x78,0x75,0x63]) : Routed inClass escaped := by
  simp only [List.mem_cons,List.not_mem_nil,or_false] at among
  rcases among with rfl | rfl | rfl | rfl | rfl | rfl | rfl | rfl | rfl <;> exact ⟨by decide,fun _ => by decide⟩

theorem routedSyntax (syntax_ : isSyntaxCharacter escaped = true ∨ inClass = true ∧ escaped = 0x2d) : Routed inClass escaped := by
  rcases syntax_ with among | ⟨rfl,rfl⟩
  · simp only [isSyntaxCharacter,List.elem_eq_mem,decide_eq_true_eq,List.mem_cons,List.not_mem_nil,or_false] at among
    rcases among with rfl | rfl | rfl | rfl | rfl | rfl | rfl | rfl | rfl | rfl | rfl | rfl | rfl | rfl | rfl <;>
      exact ⟨by decide,fun _ => by decide⟩
  · exact ⟨by decide,fun outside => by cases outside⟩

theorem notSpecial (plain : isSpecialEscape inClass escaped = false) :
    isAsciiDigit escaped = false ∧ escaped ∉ [0x62,0x63,0x64,0x44,0x66,0x6e,0x72,0x73,0x53,0x74,0x75,0x76,0x77,0x57,0x78] ∧
      (inClass = false → escaped ≠ 0x42 ∧ escaped ≠ 0x6b) := by
  simp only [isSpecialEscape,Bool.or_eq_false_iff,List.elem_eq_mem,decide_eq_false_iff_not] at plain
  refine ⟨plain.1.1,plain.1.2,fun outside => ?_⟩
  subst outside
  have two := plain.2
  simp only [Bool.not_false,Bool.true_and,decide_eq_false_iff_not,List.mem_cons,List.not_mem_nil,or_false,not_or] at two
  exact two

theorem routedPlain (plain : isSpecialEscape inClass escaped = false) : Routed inClass escaped := by
  obtain ⟨digit,shared,outside⟩ := notSpecial plain
  refine ⟨fun among => shared ?_,fun out => ⟨(outside out).1,(outside out).2,by rw [digit]; rfl⟩⟩
  simp only [List.mem_cons,List.not_mem_nil,or_false] at among ⊢
  omega

theorem readsIdentity (plain : isSpecialEscape inClass escaped = false) (rest) : Reads (escapeCharacter false escaped inClass) [] rest escaped := by
  obtain ⟨digit,shared,-⟩ := notSpecial plain
  simp only [List.mem_cons,List.not_mem_nil,or_false,not_or] at shared
  have zero : escaped ≠ 0x30 := fun same => by rw [same] at digit; cases digit
  unfold escapeCharacter
  rw [if_neg (by omega),if_neg (by omega),if_neg (by omega),if_neg (by omega),if_neg (by omega),if_neg zero,if_neg (by omega),if_neg (by omega),
    if_pos (by rfl)]
  exact readsPure _ rest

theorem readsSyntax (syntax_ : isSyntaxCharacter escaped = true ∨ inClass = true ∧ escaped = 0x2d) (rest) :
    Reads (escapeCharacter true escaped inClass) [] rest escaped := by
  rcases syntax_ with among | ⟨rfl,rfl⟩
  · simp only [isSyntaxCharacter,List.elem_eq_mem,decide_eq_true_eq,List.mem_cons,List.not_mem_nil,or_false] at among
    rcases among with rfl | rfl | rfl | rfl | rfl | rfl | rfl | rfl | rfl | rfl | rfl | rfl | rfl | rfl | rfl <;> exact readsPure _ rest
  · exact readsPure _ rest

theorem readsControl (unicode inClass) {letter} (known : (controlValue letter).isSome = true) (rest) :
    Reads (escapeCharacter unicode letter inClass) [] rest ((controlValue letter).getD 0) ∧ letter ∈ [0x6e,0x72,0x74,0x66,0x76] := by
  obtain ⟨value,found⟩ := Option.isSome_iff_exists.mp known
  have among : letter ∈ [0x6e,0x72,0x74,0x66,0x76] := by
    by_contra none_
    simp only [List.mem_cons,List.not_mem_nil,or_false,not_or,← beq_eq_false_iff_ne] at none_
    simp only [controlValue,List.lookup_cons,List.lookup_nil,none_] at found
    cases found
  refine ⟨?_,among⟩
  simp only [List.mem_cons,List.not_mem_nil,or_false] at among
  rcases among with rfl | rfl | rfl | rfl | rfl <;> exact readsPure _ rest

theorem readsEscapedUnicode (inClass tail) {digits} (four : digits.length = 4) (hex : isHexDigits digits = true) {value}
    (reads : Reads (unicodeEscape unicode) (digits ++ tail) rest value) : Reads (escapeCharacter unicode 0x75 inClass) (digits ++ tail) rest value := by
  have plain : (unicode && decide ((digits ++ tail ++ rest).head? = some 0x7b)) = false := by
    cases digits with
    | nil => cases four
    | cons digit digits =>
      have known : (hexDigit digit).isSome = true := List.all_eq_true.mp hex digit List.mem_cons_self
      have differ : digit ≠ 0x7b := fun same => by rw [same] at known; cases known
      simp [differ]
  refine Reads.peeked (f := fun ahead => if unicode && decide (ahead = some 0x7b) then bracedEscape else unicodeEscape unicode) ?_
  rw [plain]
  exact reads

theorem readsSpelled {c : Spelling} {e} (text : c.text = 0x5c :: e :: tail) (escape : ∀ value, c ≠ .raw value) (notBack : c ≠ .backspace)
    (legal : c.legal unicode inClass rest = true) (served : c.served = true) :
    Reads (escapeCharacter unicode e inClass) tail rest c.value ∧ Routed inClass e := by
  cases c with
  | raw value => exact absurd rfl (escape value)
  | backspace => exact absurd rfl notBack
  | controlLetter letter => cases served
  | identity unit =>
    cases text
    cases unicode with
    | true =>
      have syntax_ : isSyntaxCharacter e = true ∨ inClass = true ∧ e = 0x2d := by
        simpa only [Spelling.legal,if_true,Bool.or_eq_true,Bool.and_eq_true,decide_eq_true_eq] using legal
      exact ⟨readsSyntax syntax_ rest,routedSyntax syntax_⟩
    | false =>
      have plain : isSpecialEscape inClass e = false := by
        simp only [Spelling.legal,Bool.false_eq_true,if_false,Bool.and_eq_true,Bool.not_eq_true'] at legal
        exact legal.1
      exact ⟨readsIdentity plain rest,routedPlain plain⟩
  | control letter =>
    cases text
    obtain ⟨reads,among⟩ := readsControl unicode inClass legal rest
    exact ⟨reads,routedCharacter (List.mem_append_left [0x30,0x78,0x75,0x63] among)⟩
  | nul =>
    cases text
    exact ⟨readsPure _ rest,routedCharacter (by decide)⟩
  | hex digits =>
    cases text
    simp only [Spelling.legal,Bool.and_eq_true,decide_eq_true_eq] at legal
    have reads := readsHex legal.2 rest
    rw [legal.1] at reads
    exact ⟨reads,routedCharacter (by decide)⟩
  | unicode digits =>
    cases text
    simp only [Spelling.legal,Bool.and_eq_true,decide_eq_true_eq,Bool.not_eq_true'] at legal
    obtain ⟨⟨four,hex⟩,alone⟩ := legal
    have reads := readsUnicode unicode four hex alone
    have both := readsEscapedUnicode inClass [] four hex (by rw [List.append_nil]; exact reads)
    rw [List.append_nil] at both
    exact ⟨both,routedCharacter (by decide)⟩
  | pair high low =>
    cases text
    simp only [Spelling.legal,Bool.and_eq_true,decide_eq_true_eq] at legal
    obtain ⟨⟨⟨⟨⟨⟨rfl,four⟩,hex⟩,isHigh_⟩,four'⟩,hex'⟩,isLow_⟩ := legal
    exact ⟨readsEscapedUnicode inClass _ four hex (readsPair four hex isHigh_ four' hex' isLow_ rest),routedCharacter (by decide)⟩
  | braced digits =>
    cases text
    simp only [Spelling.legal,Bool.and_eq_true,decide_eq_true_eq,Bool.not_eq_true',List.isEmpty_eq_false_iff] at legal
    obtain ⟨⟨⟨rfl,some_⟩,hex⟩,small⟩ := legal
    have reads := readsBraced some_ hex (by omega) served rest
    refine ⟨?_,routedCharacter (by decide)⟩
    exact Reads.peeked (f := fun ahead => if true && decide (ahead = some 0x7b) then bracedEscape else unicodeEscape true) reads

end

section
variable {unicode inClass : Bool} {rest after : List Nat} {c : Spelling} {token : Nat}

def Closing (token : Nat) : Prop := token ∈ [0x5d,0x7c,0x29]

theorem Closing.plain (closing : Closing token) :
    isLow token = false ∧ isAsciiDigit token = false ∧ hexDigit token = none ∧ token ≠ 0x5c ∧ token ≠ 0x75 := by
  simp only [Closing,List.mem_cons,List.not_mem_nil,or_false] at closing
  rcases closing with rfl | rfl | rfl <;> decide

theorem lowEscapeCases (low : Spelling.lowEscapeAhead after = true) :
    ∃ a b c d more, after = 0x5c :: 0x75 :: a :: b :: c :: d :: more ∧ ((hexValue [a,b,c,d]).map isLow).getD false = true := by
  simp only [Spelling.lowEscapeAhead,Bool.and_eq_true,decide_eq_true_eq] at low
  obtain ⟨⟨start,four⟩,value⟩ := low
  match after,start,four,value with
  | first :: second :: a :: b :: c :: d :: more,start,four,value =>
    cases start
    exact ⟨a,b,c,d,more,rfl,value⟩

theorem hexValueBroken {digits} (bad : ∃ digit ∈ digits, hexDigit digit = none) : hexValue digits = none := by
  have stuck : ∀ digits : List Nat, digits.foldl (fun value digit => do return (← value)*16+(← hexDigit digit)) (none : Option Nat) = none := by
    intro digits
    induction digits with
    | nil => rfl
    | cons digit digits ih => exact ih
  have run : ∀ (digits : List Nat) (value : Nat), (∃ digit ∈ digits, hexDigit digit = none) →
      digits.foldl (fun value digit => do return (← value)*16+(← hexDigit digit)) (some value) = none := by
    intro digits
    induction digits with
    | nil => exact fun _ bad => absurd bad (by simp)
    | cons digit digits ih =>
      intro value bad
      rw [List.foldl_cons]
      cases known : hexDigit digit with
      | none => exact stuck digits
      | some number =>
        refine ih _ ?_
        obtain ⟨other,among,none_⟩ := bad
        rcases List.mem_cons.mp among with rfl | later
        · rw [known] at none_
          cases none_
        · exact ⟨other,later,none_⟩
  exact run digits 0 bad

theorem lowEscapeClosed (closing : Closing token) (low : Spelling.lowEscapeAhead (after ++ token :: rest) = true) : Spelling.lowEscapeAhead after = true := by
  obtain ⟨-,-,notHex,notSlash,notLetter⟩ := closing.plain
  obtain ⟨a,b,c,d,more,text,value⟩ := lowEscapeCases low
  have among : ∀ digit ∈ [a,b,c,d], digit ≠ token := by
    rintro digit member rfl
    rw [hexValueBroken ⟨digit,member,notHex⟩] at value
    cases value
  match after,text with
  | first :: second :: a' :: b' :: c' :: d' :: more',text =>
    obtain ⟨rfl,rfl,rfl,rfl,rfl,rfl,-⟩ := text
    simp [Spelling.lowEscapeAhead,value]
  | [],text => exact absurd (List.cons.inj text).1 notSlash
  | [_],text => exact absurd (List.cons.inj (List.cons.inj text).2).1 notLetter
  | [_,_],text => simp_all
  | [_,_,_],text => simp_all
  | [_,_,_,_],text => simp_all
  | [_,_,_,_,_],text => simp_all

theorem headClosed (test) (no : test token = false) (plain : (after.head?.map test).getD false = false) :
    ((after ++ token :: rest).head?.map test).getD false = false := by
  cases after with
  | nil => exact no
  | cons first after => exact plain

theorem legalClosed (closing : Closing token) (legal : c.legal unicode inClass after = true) : c.legal unicode inClass (after ++ token :: rest) = true := by
  obtain ⟨notLow,notDigit,-⟩ := closing.plain
  cases c with
  | raw value =>
    simp only [Spelling.legal,Bool.and_eq_true,Bool.not_eq_true'] at legal ⊢
    refine ⟨legal.1,?_⟩
    cases both : unicode && isHigh value with
    | false => rfl
    | true =>
      have ahead := legal.2
      rw [both,Bool.true_and] at ahead
      exact headClosed isLow notLow ahead
  | nul =>
    simp only [Spelling.legal,Bool.not_eq_true'] at legal ⊢
    exact headClosed isAsciiDigit notDigit legal
  | unicode digits =>
    simp only [Spelling.legal,Bool.and_eq_true,Bool.not_eq_true'] at legal ⊢
    refine ⟨legal.1,?_⟩
    cases both : unicode && isHigh (hexNumber digits) with
    | false => rfl
    | true =>
      have ahead := legal.2
      rw [both,Bool.true_and] at ahead
      refine Bool.of_not_eq_true fun low => ?_
      rw [lowEscapeClosed closing low] at ahead
      cases ahead
  | _ => exact legal

theorem lowEscapeGrows (low : Spelling.lowEscapeAhead after = true) (more) : Spelling.lowEscapeAhead (after ++ more) = true := by
  obtain ⟨a,b,c,d,tail,rfl,value⟩ := lowEscapeCases low
  simp [Spelling.lowEscapeAhead,value]

theorem headGrows {test more} (plain : ((after ++ more).head?.map test).getD false = false) : (after.head?.map test).getD false = false := by
  cases after with
  | nil => rfl
  | cons first after => exact plain

theorem legalCut {more} (legal : c.legal unicode inClass (after ++ more) = true) : c.legal unicode inClass after = true := by
  cases c with
  | raw value =>
    simp only [Spelling.legal,Bool.and_eq_true,Bool.not_eq_true'] at legal ⊢
    refine ⟨legal.1,?_⟩
    cases both : unicode && isHigh value with
    | false => rfl
    | true =>
      have ahead := legal.2
      rw [both,Bool.true_and] at ahead
      exact headGrows ahead
  | nul =>
    simp only [Spelling.legal,Bool.not_eq_true'] at legal ⊢
    exact headGrows legal
  | unicode digits =>
    simp only [Spelling.legal,Bool.and_eq_true,Bool.not_eq_true'] at legal ⊢
    refine ⟨legal.1,?_⟩
    cases both : unicode && isHigh (hexNumber digits) with
    | false => rfl
    | true =>
      have ahead := legal.2
      rw [both,Bool.true_and] at ahead
      refine Bool.of_not_eq_true fun low => ?_
      rw [lowEscapeGrows low more] at ahead
      cases ahead
  | _ => exact legal

theorem readsRaw {value} (small : value ≤ if unicode then 0x10ffff else 0xffff) (alone : (unicode && isHigh value && Spelling.lowAhead rest) = false) :
    ∃ token tail, utf16 value = token :: tail ∧ (token = value ∨ 0xd800 ≤ token) ∧ Reads (character unicode token) tail rest value := by
  by_cases low : value < 0x10000
  · refine ⟨value,[],by rw [utf16,if_pos low],.inl rfl,readsState fun position count names => ?_⟩
    rw [List.nil_append]
    cases rest with
    | nil => exact readsPure _ _
    | cons second rest =>
      dsimp only [List.head?_cons]
      rw [if_neg (by
        have plain : (unicode && isHigh value && isLow second) = false := alone
        rw [plain]
        decide)]
      exact readsPure _ _
  · cases unicode with
    | false => exact absurd small (by simp only [Bool.false_eq_true,if_false]; omega)
    | true =>
      simp only [if_true] at small
      have high : isHigh (0xd800+(value-0x10000)/1024) = true := by
        simp only [isHigh,Bool.and_eq_true,decide_eq_true_eq]
        omega
      have lowHalf : isLow (0xdc00+(value-0x10000) % 1024) = true := by
        simp only [isLow,Bool.and_eq_true,decide_eq_true_eq]
        omega
      have joined : combineSurrogates (0xd800+(value-0x10000)/1024) (0xdc00+(value-0x10000) % 1024) = value := by
        unfold combineSurrogates
        omega
      refine ⟨_,_,by rw [utf16,if_neg low],.inr (Nat.le_add_right _ _),readsState fun position count names => ?_⟩
      dsimp only [List.singleton_append,List.head?_cons]
      rw [if_pos (by rw [high,lowHalf]; rfl)]
      refine Reads.skipped ?_
      rw [joined]
      exact readsPure _ _

end

end Bamts.Regexp.Parse
