import Bamts.RegexpReadsClass

/-! What the parser reads of a written quantifier, of an atom, and of a whole pattern. -/
set_option linter.all false
namespace Bamts.Regexp.Parse
open Effect

section
variable {digits rest after : List Nat}

theorem decimalFoldLe (digits : List Nat) (value) : value ≤ digits.foldl (fun value digit => value*10+(digit-0x30)) value := by
  induction digits generalizing value with
  | nil => exact Nat.le_refl _
  | cons digit digits ih => exact Nat.le_trans (by omega) (ih (value*10+(digit-0x30)))

theorem decimalStop (plain : (rest.head?.map isAsciiDigit).getD false = false) (value) : decimalLoop rest value = (some value,0) := by
  cases rest with
  | nil => rfl
  | cons unit rest =>
    have digit : isAsciiDigit unit = false := plain
    simp [decimalLoop,decimalDigit,digit]

theorem decimalDigits (value) (digits_ : digits.all isAsciiDigit = true)
    (small : digits.foldl (fun value digit => value*10+(digit-0x30)) value < 2^64) (plain : (rest.head?.map isAsciiDigit).getD false = false) :
    decimalLoop (digits ++ rest) value = (some (digits.foldl (fun value digit => value*10+(digit-0x30)) value),digits.length) := by
  induction digits generalizing value with
  | nil => exact decimalStop plain value
  | cons digit digits ih =>
    simp only [List.all_cons,Bool.and_eq_true] at digits_
    have below : value*10+(digit-0x30) < 2^64 := Nat.lt_of_le_of_lt (decimalFoldLe digits _) small
    have later := ih (value*10+(digit-0x30)) digits_.2 small
    rw [List.cons_append,decimalLoop]
    simp only [decimalDigit,digits_.1,if_true]
    rw [if_pos below,later]
    rfl

theorem readsDecimal (number : Counts.isNumber digits = true) (plain : (rest.head?.map isAsciiDigit).getD false = false) :
    Reads parseDecimal digits rest (some (decimalNumber digits)) := by
  simp only [Counts.isNumber,isDecimalDigits,Bool.and_eq_true,Bool.not_eq_true',List.isEmpty_eq_false_iff,decide_eq_true_eq] at number
  obtain ⟨⟨some_,all⟩,small⟩ := number
  refine readsState fun position count names => ?_
  rw [decimalDigits 0 all small plain]
  refine (readsSkip digits rest).last ?_
  rw [if_neg (by simpa using some_)]
  exact readsPure _ rest

theorem readsBounds {counts : Counts} (legal : counts.legal = true) (rest) :
    ∃ token tail, counts.text = token :: tail ∧ Reads (quantifierRange token) counts.text rest (some counts.bounds) := by
  cases counts with
  | star => exact ⟨_,_,rfl,fun _ _ _ => rfl⟩
  | plus => exact ⟨_,_,rfl,fun _ _ _ => rfl⟩
  | optional => exact ⟨_,_,rfl,fun _ _ _ => rfl⟩
  | exactly digits =>
    refine ⟨_,_,rfl,readsState fun position count names => Reads.skipped ?_⟩
    refine (readsDecimal legal rfl).bind (Reads.after ?_)
    exact readsPure _ rest
  | atLeast digits =>
    refine ⟨_,_,rfl,readsState fun position count names => Reads.skipped ?_⟩
    refine (readsDecimal legal rfl).bind (Reads.after ?_)
    exact fun _ _ _ => rfl
  | between least most =>
    simp only [Counts.legal,Bool.and_eq_true,decide_eq_true_eq] at legal
    obtain ⟨⟨low,high⟩,ordered⟩ := legal
    refine ⟨_,_,rfl,readsState fun position count names => Reads.skipped ?_⟩
    refine (readsDecimal low rfl).bind (Reads.after ?_)
    refine (readsDecimal high rfl).bind (Reads.after ?_)
    rw [if_neg (by simp),if_neg (by simpa using ordered)]
    exact readsPure _ rest

def Apart (after : List Nat) : Prop := ∀ token, after.head? = some token → token ∉ [0x2a,0x2b,0x3f,0x7b]

theorem apartPlain {token} (apart : Apart (token :: rest)) : token ≠ 0x2a ∧ token ≠ 0x2b ∧ token ≠ 0x3f ∧ token ≠ 0x7b := by
  have plain := apart token rfl
  simp only [List.mem_cons,List.not_mem_nil,or_false,not_or] at plain
  exact plain

theorem readsNoQuantifier (atom) (apart : Apart rest) : Reads (parseQuantifier atom) [] rest atom := by
  refine Reads.peeked ?_
  cases rest with
  | nil => exact readsPure _ _
  | cons token rest =>
    obtain ⟨star,plus,optional,brace⟩ := apartPlain apart
    dsimp only [List.nil_append,List.head?_cons]
    unfold quantifierRange
    rw [if_neg star,if_neg plus,if_neg optional,if_neg brace]
    exact readsPure _ _

theorem readsQuantifier (atom quantifier) (legal : (quantifier.map fun q => q.counts.legal).getD true = true) (apart : Apart rest) :
    Reads (parseQuantifier atom) (quantifierText quantifier) rest (quantified atom quantifier) := by
  cases quantifier with
  | none => exact readsNoQuantifier atom apart
  | some quantifier =>
    obtain ⟨counts,lazy⟩ := quantifier
    obtain ⟨token,tail,head,reads⟩ := readsBounds legal ((if lazy then [0x3f] else []) ++ rest)
    refine Reads.peeked ?_
    have first : (quantifierText (some ⟨counts,lazy⟩) ++ rest).head? = some token := by
      rw [show quantifierText (some ⟨counts,lazy⟩) = counts.text ++ _ from rfl,head]
      rfl
    rw [first]
    have test : decide (((if lazy then [0x3f] else []) ++ rest).head? = some 0x3f) = lazy := by
      cases lazy with
      | true => rfl
      | false =>
        cases rest with
        | nil => rfl
        | cons token rest => simpa using (apartPlain apart).2.2.1
    refine Reads.bind reads (Reads.peeked ?_)
    rw [test]
    cases lazy with
    | true => exact fun _ _ _ => rfl
    | false => exact readsPure _ _

end

abbrev Groups := Nat × List (List Nat × Nat)

-- A written piece is read as it stands, with its groups, where the source has all of it; else whatever is read is not it.
structure Settles {α : Type} (served : Bool) (p : Parse α) (text rest : List Nat) (groups groups' : Groups) (a : α) : Prop where
  reads : served = true → ∀ position, p ⟨position,text ++ rest,groups.1,groups.2⟩ = .ok a ⟨position+text.length,rest,groups'.1,groups'.2⟩
  misses : served = false → ∀ position b t, p ⟨position,text ++ rest,groups.1,groups.2⟩ = .ok b t → b ≠ a

section
variable {α β : Type} {p : Parse α} {f : α → Parse β} {text text' rest : List Nat} {a : α} {b : β} {served served' : Bool} {token : Nat}
  {groups groups' groups'' : Groups}

theorem Reads.settles (reads : Reads p text rest a) (groups) : Settles true p text rest groups groups a :=
  ⟨fun _ position => reads position _ _,fun same => Bool.noConfusion same⟩

theorem Misses.settles (misses : Misses p (text ++ rest) fun b => b ≠ a) (groups groups') : Settles false p text rest groups groups' a :=
  ⟨fun same => Bool.noConfusion same,fun _ position b t done => misses position _ _ b t done⟩

theorem Settles.then {Q} (first : Settles served p text (text' ++ rest) groups groups' a) (gives : Gives p Q)
    (later : Settles served' (f a) text' rest groups' groups'' b) (differs : ∀ other, Q other → other ≠ a → Gives (f other) fun c => c ≠ b) :
    Settles (served && served') (p >>= f) (text ++ text') rest groups groups'' b := by
  constructor
  · intro both position
    rw [Bool.and_eq_true] at both
    rw [List.append_assoc,doneBind (first.reads both.1 position),later.reads both.2,List.length_append,Nat.add_assoc]
  · intro notBoth position c t done
    rw [List.append_assoc] at done
    cases here : served with
    | true =>
      rw [here] at notBoth
      rw [doneBind (first.reads here position)] at done
      exact later.misses notBoth _ _ _ done
    | false =>
      obtain ⟨other,u,before,after⟩ := bindDone done
      exact (differs other ((gives _).ok before) (first.misses here _ _ _ before) u).ok after

theorem Settles.lead {front} (first : Settles true p front (text ++ rest) groups groups' a)
    (later : Settles served (f a) text rest groups' groups'' b) : Settles served (p >>= f) (front ++ text) rest groups groups'' b := by
  constructor
  · intro here position
    rw [List.append_assoc,doneBind (first.reads rfl position),later.reads here,List.length_append,Nat.add_assoc]
  · intro here position c t done
    rw [List.append_assoc,doneBind (first.reads rfl position)] at done
    exact later.misses here _ _ _ done

theorem Settles.behind {front} (first : Reads p front (text ++ rest) a) (later : Settles served (f a) text rest groups groups' b) :
    Settles served (p >>= f) (front ++ text) rest groups groups' b := (first.settles groups).lead later

theorem Settles.peeked {f} (later : Settles served (f (text ++ rest).head?) text rest groups groups' b) :
    Settles served (peek >>= f) text rest groups groups' b := Settles.behind (readsPeek _) later

theorem Settles.after {f} (later : Settles served (f (some token)) text rest groups groups' b) :
    Settles served (next >>= f) (token :: text) rest groups groups' b := Settles.behind (readsNext _ _) later

theorem Settles.skipped {f} (later : Settles served (f ()) text rest groups groups' b) :
    Settles served (skip 1 >>= f) (token :: text) rest groups groups' b := Settles.behind (readsSkipOne _ _) later

theorem Settles.done {g : α → β} (first : Settles served p text rest groups groups' a) (injective : ∀ other, g other = g a → other = a) :
    Settles served (p >>= fun a => pure (g a)) text rest groups groups' (g a) := by
  have both := @Settles.then _ _ p (fun a => pure (g a)) text [] rest a (g a) served true groups groups' groups' _ first (givesTrivial p) ((readsPure (g a) rest).settles groups')
    fun other _ differs => givesPure fun same => differs (injective other same)
  rw [Bool.and_true,List.append_nil] at both
  exact both

end

section
variable {unicode : Bool} {fuel : Nat} {rest tail after : List Nat} {c : Spelling} {e : Nat}

theorem settlesSpelled (legal : c.legal unicode inClass rest = true) (text : c.text = 0x5c :: e :: tail) (escape : ∀ value, c ≠ .raw value)
    (notBack : c ≠ .backspace) (groups) :
    Settles c.served (escapeCharacter unicode e inClass) tail rest groups groups c.value ∧ Routed inClass e := by
  cases served : c.served with
  | true =>
    obtain ⟨reads,routed⟩ := readsSpelled text escape notBack legal served
    exact ⟨reads.settles groups,routed⟩
  | false =>
    obtain ⟨e',tail',text',routed,misses⟩ := missesSpelled legal served rest
    rw [text] at text'
    cases text'
    exact ⟨misses.settles groups groups,routed⟩

theorem settlesEscape {value served groups} (first : Settles served (escapeCharacter unicode e false) tail rest groups groups value)
    (routed : Routed false e) : Settles served (parseEscape unicode) (e :: tail) rest groups groups (.literal value) := by
  have shared := routed.shared
  obtain ⟨notBoundary,notName,notNumber⟩ := routed.outside rfl
  simp only [List.mem_cons,List.not_mem_nil,or_false,not_or] at shared
  refine Settles.after ?_
  dsimp only
  rw [if_neg (by omega),if_neg (by omega),if_neg (by omega),if_neg (by omega),if_neg (by omega),if_neg (by omega),if_neg (by omega),if_neg (by omega)]
  refine @Settles.behind Bool Node _ _ tail rest false _ _ _ _ [] ?_ ?_
  · unfold isNamedReference
    rw [if_neg notName]
    exact readsPure _ _
  · rw [if_neg (by decide),notNumber,if_neg (by decide)]
    exact first.done fun other same => Node.literal.inj same

theorem patternPlain {value} (plain : isPatternSyntax value = false) {token} (first : token = value ∨ 0xd800 ≤ token) :
    token ∉ [0x5e,0x24,0x5c,0x2e,0x2a,0x2b,0x3f,0x28,0x29,0x5b,0x5d,0x7b,0x7d,0x7c] := by
  rcases first with rfl | high
  · simpa only [isPatternSyntax,List.elem_eq_mem,decide_eq_false_iff_not] using plain
  · simp only [List.mem_cons,List.not_mem_nil,or_false]
    omega

theorem settlesChar (legal : c.legal unicode false rest = true) (groups) :
    Settles c.served (parseAtom unicode (fuel+1)) c.text rest groups groups (.literal c.value) := by
  rcases spelledStart c with ⟨value,rfl⟩ | rfl | ⟨e,tail,text,escape,notBack⟩
  · simp only [Spelling.legal,Bool.and_eq_true,decide_eq_true_eq,Bool.not_eq_true',Bool.false_eq_true,if_false] at legal
    obtain ⟨⟨small,plain⟩,alone⟩ := legal
    obtain ⟨token,tail,text,first,reads⟩ := @readsRaw unicode rest value small alone
    have apart := patternPlain plain first
    simp only [List.mem_cons,List.not_mem_nil,or_false,not_or] at apart
    rw [show (Spelling.raw value).text = token :: tail from text]
    refine Settles.after ?_
    dsimp only
    rw [if_neg (by omega),if_neg (by omega),if_neg (by omega),if_neg (by omega),if_neg (by omega),if_neg (by omega),if_neg (by omega),if_neg (by omega)]
    exact (reads.settles groups).done fun other same => Node.literal.inj same
  · cases legal
  · obtain ⟨first,routed⟩ := settlesSpelled legal text escape notBack groups
    rw [text]
    refine Settles.after ?_
    exact settlesEscape first routed

theorem settlesClass {letter} (known : (escapeItem letter).isSome = true) (rest groups) :
    Settles true (parseAtom unicode (fuel+1)) [0x5c,letter] rest groups groups (classNode ((escapeItem letter).getD .digit)) := by
  refine Reads.settles (Reads.after ?_) groups
  have among := escapeLetters known
  simp only [List.mem_cons,List.not_mem_nil,or_false] at among
  rcases among with rfl | rfl | rfl | rfl | rfl | rfl <;> exact fun _ _ _ => rfl

theorem settlesSet {set : ClassSpelling} (legal : set.legal unicode = true) (rest groups) :
    Settles set.served (parseAtom unicode (fuel+1)) set.text rest groups groups (.class_ set.tree) := by
  refine Settles.after ?_
  have first : Settles set.served (parseClass unicode) (classTail set) rest groups groups set.tree := by
    cases served : set.served with
    | true => exact (readsClass legal served rest).settles groups
    | false => exact (missesClass legal served rest).settles groups groups
  exact first.done fun other same => Node.class_.inj same

theorem settlesReference {digits} (number : Counts.isNumber digits = true) (head : digits.head? ≠ some 0x30)
    (plain : (rest.head?.map isAsciiDigit).getD false = false) (groups) :
    Settles true (parseAtom unicode (fuel+1)) (0x5c :: digits) rest groups groups (.backReference (decimalNumber digits)) := by
  simp only [Counts.isNumber,isDecimalDigits,Bool.and_eq_true,Bool.not_eq_true',List.isEmpty_eq_false_iff,decide_eq_true_eq] at number
  obtain ⟨⟨some_,all⟩,small⟩ := number
  obtain ⟨first,digits,rfl⟩ := List.exists_cons_of_ne_nil some_
  simp only [List.all_cons,Bool.and_eq_true] at all
  obtain ⟨digit,all⟩ := all
  have notZero : first ≠ 0x30 := fun same => head (congrArg some same)
  have range := digit
  simp only [isAsciiDigit,Bool.and_eq_true,decide_eq_true_eq] at range
  have whole : decimalNumber (first :: digits) = digits.foldl (fun value digit => value*10+(digit-0x30)) (first-0x30) := by
    rw [decimalNumber,List.foldl_cons,Nat.zero_mul,Nat.zero_add]
  rw [whole] at small ⊢
  refine Reads.settles (Reads.after ?_) groups
  refine Reads.after ?_
  dsimp only
  rw [if_neg (by omega),if_neg (by omega),if_neg (by omega),if_neg (by omega),if_neg (by omega),if_neg (by omega),if_neg (by omega),if_neg (by omega)]
  have looked : Reads (isNamedReference first) [] (digits ++ rest) false := by
    unfold isNamedReference
    rw [if_neg (by omega)]
    exact readsPure _ _
  refine @Reads.bind Bool Node _ _ [] digits rest false _ looked ?_
  rw [if_neg (by decide),digit,Bool.true_and,if_pos (by simpa using notZero)]
  have reads : Reads (backreferenceNumber (first-0x30)) digits rest (digits.foldl (fun value digit => value*10+(digit-0x30)) (first-0x30)) := by
    refine readsState fun position count names => ?_
    rw [decimalDigits (first-0x30) all small plain]
    refine (readsSkip digits rest).last ?_
    exact readsPure _ rest
  exact reads.done

theorem readsName {name} (legal : nameLegal name = true) (rest) : Reads (takeUntil 0x3e ">") (name ++ [0x3e]) rest name := by
  simp only [nameLegal,Bool.and_eq_true,Bool.not_eq_true',List.elem_eq_mem,decide_eq_false_iff_not] at legal
  exact readsUntil legal.1.1.2 legal.1.1.1.2 _ rest

theorem settlesNamed {name} (legal : nameLegal name = true) (rest groups) :
    Settles true (parseAtom unicode (fuel+1)) (0x5c :: 0x6b :: 0x3c :: (name ++ [0x3e])) rest groups groups (.namedBackReference name) := by
  refine Reads.settles (Reads.after ?_) groups
  refine Reads.after ?_
  have looked : Reads (isNamedReference 0x6b) [0x3c] (name ++ [0x3e] ++ rest) true := fun _ _ _ => rfl
  exact @Reads.bind Bool Node _ _ [0x3c] (name ++ [0x3e]) rest true _ looked (readsName legal rest).done

theorem lookupNone {name} {names : List (List Nat × Nat)} (new : name ∉ names.map Prod.fst) : names.lookup name = none := by
  rw [List.lookup_eq_none_iff]
  intro entry among
  exact bne_iff_ne.mpr fun same => new (same ▸ List.mem_map_of_mem among)

theorem settlesKind (kind : GroupSpelling) (legal : ∀ name, kind = .named name → nameLegal name = true) (apart : Apart rest) (groups)
    (distinct : ((groups.2 ++ kind.names groups.1).map Prod.fst).Nodup) :
    Settles true groupKind kind.text rest groups (groups.1+kind.captures,groups.2 ++ kind.names groups.1) (kind.kind groups.1) := by
  obtain ⟨count,names⟩ := groups
  cases kind with
  | plain =>
    simp only [GroupSpelling.names,List.append_nil]
    exact ⟨fun _ position => rfl,fun same => Bool.noConfusion same⟩
  | capture =>
    simp only [GroupSpelling.names,List.append_nil]
    have plain : rest.head? ≠ some 0x3f := fun same => apart 0x3f same (by decide)
    refine Settles.peeked ?_
    rw [if_neg (show ¬(GroupSpelling.capture.text ++ rest).head? = some 0x3f from plain)]
    exact ⟨fun _ position => rfl,fun same => Bool.noConfusion same⟩
  | named name =>
    have formed := legal name rfl
    have new : name ∉ names.map Prod.fst := by
      rw [List.map_append,List.nodup_append] at distinct
      exact fun among => distinct.2.2 name among name List.mem_cons_self rfl
    simp only [nameLegal,Bool.and_eq_true,Bool.not_eq_true',decide_eq_true_eq] at formed
    obtain ⟨⟨⟨⟨some_,-⟩,-⟩,notEqual⟩,notBang⟩ := formed
    have ahead : (name ++ [0x3e] ++ rest).head? = name.head? := by
      cases name with
      | nil => cases some_
      | cons first name => rfl
    have unseen : (name.isEmpty || (names.lookup name).isSome) = false := by
      rw [some_,lookupNone new]
      rfl
    refine Settles.peeked ?_
    refine Settles.skipped (Settles.after ?_)
    refine Settles.peeked ?_
    rw [ahead,if_neg notEqual,if_neg notBang]
    rw [← List.append_nil (name ++ [0x3e])]
    refine Settles.behind (a := name) ?_ ?_
    · exact readsName (legal name rfl) rest
    · refine ⟨fun _ position => ?_,fun same => Bool.noConfusion same⟩
      have run : (if name.isEmpty || (names.lookup name).isSome then error "invalid duplicate capture group name"
          else newCapture >>= fun index => update (fun s => { s with names := s.names ++ [(name,index)] }) >>= fun _ =>
            pure (GroupKind.group (some index)) : Parse GroupKind) ⟨position,rest,count,names⟩ =
          .ok (.group (some (count+1))) ⟨position,rest,count+1,names ++ [(name,count+1)]⟩ := by
        rw [unseen,if_neg (by decide)]
        rfl
      exact run

end

inductive Ends : Option Nat → List Nat → Prop where
  | all : Ends none []
  | group (more : List Nat) : Ends (some 0x29) (0x29 :: more)

theorem Ends.closes {terminator outer} (ends : Ends terminator outer) : terminator = none ∨ terminator = some 0x29 := by
  cases ends with
  | all => exact .inl rfl
  | group more => exact .inr rfl

inductive Stops (terminator : Option Nat) : List Nat → Prop where
  | ends {outer : List Nat} (ends : Ends terminator outer) : Stops terminator outer
  | branch (more : List Nat) (closes : terminator = none ∨ terminator = some 0x29) : Stops terminator (0x7c :: more)

theorem Stops.closes {terminator outer} (stops : Stops terminator outer) : terminator = none ∨ terminator = some 0x29 := by
  cases stops with
  | ends ends => exact ends.closes
  | branch more closes => exact closes

section
variable {reading : Reading} {after outer : List Nat} {atom : Atom} {terms : Terms} {terminator : Option Nat}

theorem Stops.cases (stops : Stops terminator outer) : outer = [] ∨ ∃ token more, outer = token :: more ∧ Closing token := by
  cases stops with
  | ends ends =>
    cases ends with
    | all => exact .inl rfl
    | group more => exact .inr ⟨0x29,more,rfl,by simp [Closing]⟩
  | branch more closes => exact .inr ⟨0x7c,more,rfl,by simp [Closing]⟩

theorem Stops.apart (stops : Stops terminator outer) : Apart outer := by
  intro token head
  rcases stops.cases with rfl | ⟨first,more,rfl,closing⟩
  · cases head
  · cases head
    simp only [Closing,List.mem_cons,List.not_mem_nil,or_false] at closing ⊢
    omega

theorem atomHead (legal : atom.legal reading after = true) :
    ∃ token tail, atom.text = token :: tail ∧ token ∉ [0x2a,0x2b,0x3f,0x7b,0x29,0x7c] := by
  cases atom with
  | char c =>
    rcases spelledStart c with ⟨value,rfl⟩ | rfl | ⟨e,tail,text,-,-⟩
    · simp only [Atom.legal,Spelling.legal,Bool.and_eq_true,decide_eq_true_eq,Bool.not_eq_true',Bool.false_eq_true,if_false] at legal
      obtain ⟨⟨small,plain⟩,alone⟩ := legal
      obtain ⟨token,tail,text,first,-⟩ := @readsRaw _ _ value small alone
      have apart := patternPlain plain first
      refine ⟨token,tail,text,fun among => apart ?_⟩
      simp only [List.mem_cons,List.not_mem_nil,or_false] at among ⊢
      omega
    · cases legal
    · exact ⟨_,_,text,by decide⟩
  | _ => exact ⟨_,_,rfl,by decide⟩

theorem termsApart (legal : terms.legal reading = true) (stops : Stops terminator outer) : Apart (terms.text ++ outer) := by
  cases terms with
  | nil => exact stops.apart
  | cons atom quantifier rest =>
    simp only [Terms.legal,Bool.and_eq_true] at legal
    obtain ⟨token,tail,head,plain⟩ := atomHead legal.1.1
    rw [Terms.text,head]
    intro first same
    cases same
    intro among
    refine plain ?_
    simp only [List.mem_cons,List.not_mem_nil,or_false] at among ⊢
    omega

theorem bodyApart {body : Body} (legal : body.legal reading = true) (ends : Ends terminator outer) : Apart (body.text ++ outer) := by
  cases body with
  | one terms => exact termsApart legal (.ends ends)
  | more terms rest =>
    simp only [Body.legal,Bool.and_eq_true] at legal
    have apart := termsApart legal.1 (.branch (rest.text ++ outer) ends.closes : Stops terminator _)
    rw [Body.text,List.append_assoc]
    exact apart

theorem atomClosed (legal : atom.legal reading after = true) (stops : Stops terminator outer) : atom.legal reading (after ++ outer) = true := by
  rcases stops.cases with rfl | ⟨token,more,rfl,closing⟩
  · rw [List.append_nil]
    exact legal
  · cases atom with
    | char c => exact legalClosed closing legal
    | reference digits =>
      simp only [Atom.legal,Bool.and_eq_true,Bool.not_eq_true'] at legal ⊢
      exact ⟨legal.1,headClosed isAsciiDigit closing.plain.2.1 legal.2⟩
    | _ => exact legal

theorem atomPlain (count) (atom : Atom) (body least most greedy) :
    atom.tree count ≠ .repeat_ body least most greedy := by
  intro same
  cases atom with
  | group kind body => cases kind <;> cases same
  | _ => cases same

theorem givesQuantifier (atom) :
    Gives (parseQuantifier atom) fun node => node = atom ∨ ∃ least most greedy, node = .repeat_ atom least most greedy := by
  refine givesAfter fun token => ?_
  cases token with
  | none => exact givesPure (.inl rfl)
  | some token =>
    refine givesAfter fun range => ?_
    cases range with
    | none => exact givesPure (.inl rfl)
    | some range => exact givesAfter fun _ => .ite (givesAfter fun _ => givesPure (.inr ⟨_,_,_,rfl⟩)) (givesPure (.inr ⟨_,_,_,rfl⟩))

theorem quantifiedDiffers {count other node} (placed : other.placed) (differs : other ≠ atom.tree count) (quantifier)
    (made : node = other ∨ ∃ least most greedy, node = .repeat_ other least most greedy) : node ≠ quantified (atom.tree count) quantifier := by
  cases quantifier with
  | none =>
    rcases made with rfl | ⟨least,most,greedy,rfl⟩
    · exact differs
    · exact fun same => atomPlain count atom _ _ _ _ same.symm
  | some quantifier =>
    rcases made with rfl | ⟨least,most,greedy,rfl⟩
    · rintro rfl
      exact placed.elim
    · intro same
      cases same
      exact differs rfl

def IsSequence (node : Node) : Prop := ∃ nodes, node = .sequence nodes

theorem treesSequences (count) : ∀ body : Body, ∀ node ∈ body.trees count, IsSequence node
  | .one terms => by
    intro node among
    rw [Body.trees,List.mem_singleton] at among
    exact ⟨_,among⟩
  | .more terms rest => by
    intro node among
    rw [Body.trees,List.mem_cons] at among
    rcases among with rfl | later
    · exact ⟨_,rfl⟩
    · exact treesSequences _ rest node later

theorem choiceInjective {a b} (first : ∀ node ∈ a, IsSequence node) (second : ∀ node ∈ b, IsSequence node) (same : choice a = choice b) : a = b := by
  have only : ∀ node, ∀ list, IsSequence node → choice list = node → list = [node] := by
    rintro node list ⟨nodes,rfl⟩ same
    unfold choice at same
    split at same
    · rw [same]
    · cases same
  by_cases single : ∃ node, a = [node]
  · obtain ⟨node,rfl⟩ := single
    exact (only node b (first node List.mem_cons_self) same.symm).symm
  · by_cases single' : ∃ node, b = [node]
    · obtain ⟨node,rfl⟩ := single'
      exact only node a (second node List.mem_cons_self) same
    · unfold choice at same
      split at same
      · exact absurd ⟨_,rfl⟩ single
      · split at same
        · exact absurd ⟨_,rfl⟩ single'
        · exact Node.alternation.inj same

theorem givesSequences (unicode fuel terminator) :
    Gives (parseBranches unicode fuel terminator) fun branches => ∀ node ∈ branches, IsSequence node := by
  induction fuel with
  | zero => exact givesFail _
  | succ fuel ih =>
    refine givesAfter fun branch => givesAfter fun token => .ite (givesPure ?_) (givesAfter fun _ => ih.bind fun branches later => givesPure ?_)
    · intro node among
      exact ⟨_,List.mem_singleton.mp among⟩
    · intro node among
      rcases List.mem_cons.mp among with rfl | inside
      · exact ⟨_,rfl⟩
      · exact later node inside

theorem kindInjective (kind : GroupKind) {body other} (same : kind.node other = kind.node body) : other = body := by
  cases kind with
  | group index => exact (Node.group.inj same).2
  | look behind positive => exact (Node.look.inj same).1

end

section
variable {reading : Reading} {rest outer : List Nat} {terminator : Option Nat}

def closeGroup (kind : GroupKind) (body : Node) : Parse Node := do
  if (← next) ≠ some 0x29 then error "unterminated group" else return kind.node body

theorem givesClosed {kind body other} (differs : other ≠ body) : Gives (closeGroup kind other) fun node => node ≠ kind.node body :=
  givesAfter fun _ => .ite (givesError _) (givesPure fun same => differs (kindInjective kind same))

theorem settlesGroup {served kind front text body groups groups' groups'' fuel}
    (first : Settles true groupKind front (text ++ [0x29] ++ rest) groups groups' kind)
    (inner : Settles served (parseDisjunction reading.unicode fuel (some 0x29)) text (0x29 :: rest) groups' groups'' body) :
    Settles served (parseAtom reading.unicode (fuel+2)) (0x28 :: (front ++ (text ++ [0x29]))) rest groups groups'' (kind.node body) := by
  refine Settles.after ?_
  have close : Settles true (closeGroup kind body) [0x29] rest groups'' groups'' (kind.node body) :=
    ⟨fun _ _ => rfl,fun same => Bool.noConfusion same⟩
  have later : Settles served (parseDisjunction reading.unicode fuel (some 0x29) >>= closeGroup kind) (text ++ [0x29]) rest groups' groups'' (kind.node body) := by
    have both := inner.then (givesTrivial _) close fun other _ differs => givesClosed differs
    rw [Bool.and_true] at both
    exact both
  exact first.lead later

theorem settlesChoice {served text branches groups groups' fuel} (sequences : ∀ node ∈ branches, IsSequence node)
    (inner : Settles served (parseBranches reading.unicode fuel terminator) text rest groups groups' branches) :
    Settles served (parseDisjunction reading.unicode (fuel+1) terminator) text rest groups groups' (choice branches) := by
  have chosen : parseDisjunction reading.unicode (fuel+1) terminator = parseBranches reading.unicode fuel terminator >>= fun branches => pure (choice branches) := by
    rw [parseDisjunction]
    congr 1
    funext branches
    cases branches with
    | nil => rfl
    | cons branch others =>
      cases others with
      | nil => rfl
      | cons second others => rfl
  rw [chosen]
  have both := @Settles.then _ _ _ (fun branches => pure (choice branches)) text [] rest branches _ served true groups groups' groups' _ inner
    (givesSequences _ fuel terminator) ((readsPure _ rest).settles groups') fun other other_ differs => givesPure fun same =>
      differs (choiceInjective other_ sequences same)
  rw [Bool.and_true,List.append_nil] at both
  exact both

theorem nodupFront {names more : List (List Nat × Nat)} (distinct : ((names ++ more).map Prod.fst).Nodup) : (names.map Prod.fst).Nodup := by
  rw [List.map_append] at distinct
  exact List.Nodup.of_append_left distinct

theorem Settles.still {α} {p : Parse α} {served text groups a} (first : Settles served p text rest groups groups a) :
    Settles served p text rest groups (groups.1+0,groups.2 ++ []) a := by
  rw [List.append_nil]
  exact first

theorem settlesFixed {text node fuel} (reads : Reads (parseAtom reading.unicode fuel) text rest node) (groups) :
    Settles true (parseAtom reading.unicode fuel) text rest groups (groups.1+0,groups.2 ++ []) node := (reads.settles groups).still

def termAfter (unicode : Bool) (fuel : Nat) (terminator : Option Nat) (atom : Node) : Parse (List Node) := do
  let node ← parseQuantifier atom
  let nodes ← parseSequence unicode fuel terminator
  return node :: nodes

def branchAfter (unicode : Bool) (fuel : Nat) (terminator : Option Nat) (branch : List Node) : Parse (List Node) := do
  if (← peek) ≠ some 0x7c then return [.sequence branch]
  else
    skip 1
    let branches ← parseBranches unicode fuel terminator
    return .sequence branch :: branches

theorem givesBranch {unicode fuel branch other more} (differs : other ≠ branch) :
    Gives (branchAfter unicode fuel terminator other) fun nodes => nodes ≠ .sequence branch :: more := by
  refine givesAfter fun token => .ite (givesPure ?_) (givesAfter fun _ => givesAfter fun branches => givesPure ?_)
  · exact fun same => differs (Node.sequence.inj (List.cons.inj same).1)
  · exact fun same => differs (Node.sequence.inj (List.cons.inj same).1)

mutual

theorem settlesAtom (fuel : Nat) : ∀ (atom : Atom) (rest : List Nat) (groups : Groups), 4*atom.text.length ≤ fuel → atom.legal reading rest = true →
    ((groups.2 ++ atom.names groups.1).map Prod.fst).Nodup →
    Settles atom.served (parseAtom reading.unicode fuel) atom.text rest groups (groups.1+atom.captures,groups.2 ++ atom.names groups.1) (atom.tree groups.1)
  | atom, rest, groups, enough, legal, distinct => by
    obtain ⟨token,tail,head,-⟩ := atomHead legal
    have some_ : fuel ≠ 0 := fun same => by
      rw [head,List.length_cons] at enough
      omega
    obtain ⟨fuel,rfl⟩ := Nat.exists_eq_succ_of_ne_zero some_
    obtain ⟨count,names⟩ := groups
    cases atom with
    | start => exact settlesFixed (fun _ _ _ => rfl) _
    | stop => exact settlesFixed (fun _ _ _ => rfl) _
    | boundary positive =>
      cases positive with
      | true => exact settlesFixed (fun _ _ _ => rfl) _
      | false => exact settlesFixed (fun _ _ _ => rfl) _
    | dot => exact settlesFixed (fun _ _ _ => rfl) _
    | char c => exact (settlesChar legal (count,names)).still
    | escape letter => exact (settlesClass legal rest (count,names)).still
    | set set => exact (settlesSet legal rest (count,names)).still
    | reference digits =>
      simp only [Atom.legal,Bool.and_eq_true,decide_eq_true_eq,Bool.not_eq_true'] at legal
      exact (settlesReference legal.1.1.1 legal.1.1.2 legal.2 (count,names)).still
    | namedReference name =>
      simp only [Atom.legal,Bool.and_eq_true] at legal
      exact (settlesNamed legal.1 rest (count,names)).still
    | group kind body =>
      simp only [Atom.legal,Bool.and_eq_true] at legal
      simp only [Atom.names,← List.append_assoc] at distinct
      have long : 4*body.text.length+8 ≤ fuel+1 := by
        simp only [Atom.text,List.length_cons,List.length_append,List.length_nil] at enough
        omega
      obtain ⟨fuel,rfl⟩ := Nat.exists_eq_add_of_le' (show 2 ≤ fuel by omega)
      have inner := settlesChoice (treesSequences (count+kind.captures) body)
        (settlesBody fuel (some 0x29) body (0x29 :: rest) (count+kind.captures,names ++ kind.names count) (by omega) legal.2 (.group rest) distinct)
      have formed : ∀ name, kind = .named name → nameLegal name = true := by
        rintro name rfl
        exact legal.1
      have apart := bodyApart legal.2 (.group rest)
      rw [show body.text ++ 0x29 :: rest = body.text ++ [0x29] ++ rest by simp] at apart
      have whole := settlesGroup (settlesKind kind formed apart (count,names) (nodupFront distinct)) inner
      simp only [Nat.add_assoc,List.append_assoc] at whole
      exact whole
    | look behind positive body =>
      have long : 4*body.text.length+8 ≤ fuel+1 := by
        simp only [Atom.text,lookText,List.length_cons,List.length_append,List.length_nil] at enough
        omega
      obtain ⟨fuel,rfl⟩ := Nat.exists_eq_add_of_le' (show 2 ≤ fuel by omega)
      have inner := settlesChoice (treesSequences count body) (settlesBody fuel (some 0x29) body (0x29 :: rest) (count,names) (by omega) legal (.group rest) distinct)
      have looks : Settles true groupKind (lookText behind positive) (body.text ++ [0x29] ++ rest) (count,names) (count,names) (.look behind positive) :=
        ⟨fun _ position => by cases behind <;> cases positive <;> rfl,fun same => Bool.noConfusion same⟩
      exact settlesGroup looks inner

theorem settlesTerms (fuel : Nat) (terminator : Option Nat) : ∀ (terms : Terms) (outer : List Nat) (groups : Groups), 4*terms.text.length+1 ≤ fuel → terms.legal reading = true →
    Stops terminator outer → ((groups.2 ++ terms.names groups.1).map Prod.fst).Nodup →
    Settles terms.served (parseSequence reading.unicode fuel terminator) terms.text outer groups
      (groups.1+terms.captures,groups.2 ++ terms.names groups.1) (terms.trees groups.1)
  | .nil, outer, groups, enough, legal, stops, distinct => by
    obtain ⟨fuel,rfl⟩ := Nat.exists_eq_succ_of_ne_zero (Nat.ne_of_gt enough)
    have ended : Reads (parseSequence reading.unicode (fuel+1) terminator) [] outer [] := by
      rw [parseSequence]
      refine Reads.peeked ?_
      cases stops with
      | ends ends =>
        cases ends with
        | all => exact readsPure _ _
        | group more => exact readsPure _ _
      | branch more closes =>
        dsimp only [List.nil_append,List.head?_cons]
        rw [if_pos (.inr rfl)]
        exact readsPure _ _
    exact (ended.settles groups).still
  | .cons atom quantifier rest, outer, groups, enough, legal, stops, distinct => by
    obtain ⟨fuel,rfl⟩ := Nat.exists_eq_succ_of_ne_zero (Nat.ne_of_gt (Nat.zero_lt_of_lt enough))
    simp only [Terms.legal,Bool.and_eq_true] at legal
    obtain ⟨⟨atomLegal,quantifierLegal⟩,restLegal⟩ := legal
    simp only [Terms.names,← List.append_assoc] at distinct
    obtain ⟨token,tail,head,plain⟩ := atomHead atomLegal
    have long : 4*atom.text.length ≤ fuel ∧ 4*rest.text.length+1 ≤ fuel := by
      simp only [Terms.text,head,List.length_append,List.length_cons] at enough ⊢
      omega
    have first := settlesAtom fuel atom (quantifierText quantifier ++ rest.text ++ outer) groups long.1 (atomClosed atomLegal stops) (nodupFront distinct)
    have later := settlesTerms fuel terminator rest outer (groups.1+atom.captures,groups.2 ++ atom.names groups.1) long.2 restLegal stops distinct
    have counts : (quantifier.map fun q => q.counts.legal).getD true = true := by
      cases quantifier with
      | none => rfl
      | some quantifier => exact (Bool.and_eq_true_iff.mp quantifierLegal).1
    have counted := readsQuantifier (atom.tree groups.1) quantifier counts (termsApart restLegal stops)
    have goes : ¬(some token = terminator ∨ token = 0x7c) := by
      simp only [List.mem_cons,List.not_mem_nil,or_false,not_or] at plain
      rintro (same | same)
      · rcases stops.closes with rfl | rfl
        · cases same
        · exact plain.2.2.2.2.1 (Option.some.inj same)
      · exact plain.2.2.2.2.2 same
    have nodes : Settles rest.served (termAfter reading.unicode fuel terminator (atom.tree groups.1)) (quantifierText quantifier ++ rest.text) outer
        (groups.1+atom.captures,groups.2 ++ atom.names groups.1) (groups.1+atom.captures+rest.captures,
          groups.2 ++ atom.names groups.1 ++ rest.names (groups.1+atom.captures)) (Terms.trees groups.1 (.cons atom quantifier rest)) :=
      Settles.behind counted (later.done (g := fun nodes => quantified (atom.tree groups.1) quantifier :: nodes) fun other same => (List.cons.inj same).2)
    have whole := first.then (places reading.unicode fuel).atom nodes fun other placed differs =>
      (givesQuantifier other).bind fun node made => givesAfter fun nodes => givesPure fun same =>
        quantifiedDiffers placed differs quantifier made (List.cons.inj same).1
    simp only [Nat.add_assoc,List.append_assoc] at whole
    rw [parseSequence]
    refine Settles.peeked ?_
    rw [show (Terms.text (.cons atom quantifier rest) ++ outer).head? = some token by rw [Terms.text,head]; rfl]
    dsimp only
    rw [if_neg goes]
    exact whole

theorem settlesBody (fuel : Nat) (terminator : Option Nat) : ∀ (body : Body) (outer : List Nat) (groups : Groups), 4*body.text.length+2 ≤ fuel → body.legal reading = true →
    Ends terminator outer → ((groups.2 ++ body.names groups.1).map Prod.fst).Nodup →
    Settles body.served (parseBranches reading.unicode fuel terminator) body.text outer groups
      (groups.1+body.captures,groups.2 ++ body.names groups.1) (body.trees groups.1)
  | .one terms, outer, groups, enough, legal, ends, distinct => by
    obtain ⟨fuel,rfl⟩ := Nat.exists_eq_succ_of_ne_zero (Nat.ne_of_gt (Nat.zero_lt_of_lt enough))
    simp only [Body.text] at enough
    have first := settlesTerms fuel terminator terms outer groups (by omega) legal (.ends ends) distinct
    have only : Reads (branchAfter reading.unicode fuel terminator (terms.trees groups.1)) [] outer [.sequence (terms.trees groups.1)] := by
      refine Reads.peeked ?_
      cases ends with
      | all => exact readsPure _ _
      | group more => exact readsPure _ _
    have whole := first.then (givesTrivial _) (only.settles _) fun other _ differs => givesBranch differs
    rw [List.append_nil,Bool.and_true] at whole
    exact whole
  | .more terms rest, outer, groups, enough, legal, ends, distinct => by
    obtain ⟨fuel,rfl⟩ := Nat.exists_eq_succ_of_ne_zero (Nat.ne_of_gt (Nat.zero_lt_of_lt enough))
    simp only [Body.text,List.length_append,List.length_cons] at enough
    simp only [Body.legal,Bool.and_eq_true] at legal
    simp only [Body.names,← List.append_assoc] at distinct
    have first := settlesTerms fuel terminator terms (0x7c :: rest.text ++ outer) groups (by omega) legal.1 (.branch _ ends.closes) (nodupFront distinct)
    have later := settlesBody fuel terminator rest outer (groups.1+terms.captures,groups.2 ++ terms.names groups.1) (by omega) legal.2 ends distinct
    have next : Settles rest.served (branchAfter reading.unicode fuel terminator (terms.trees groups.1)) (0x7c :: rest.text) outer
        (groups.1+terms.captures,groups.2 ++ terms.names groups.1) (groups.1+terms.captures+rest.captures,
          groups.2 ++ terms.names groups.1 ++ rest.names (groups.1+terms.captures)) (Body.trees groups.1 (.more terms rest)) := by
      refine Settles.peeked ?_
      rw [if_neg (by simp)]
      refine Settles.skipped ?_
      exact later.done (g := fun branches => Node.sequence (terms.trees groups.1) :: branches) fun other same => (List.cons.inj same).2
    have whole := first.then (givesTrivial _) next fun other _ differs => givesBranch differs
    simp only [Nat.add_assoc,List.append_assoc] at whole
    exact whole

end

end

end Bamts.Regexp.Parse

namespace Bamts.Regexp
open Effect Parse

def Denotes (letter : Nat) (rest : List Nat) : Prop :=
  ∀ position count names, parseEscape false ⟨position,letter :: rest,count,names⟩ = .ok (.literal letter) ⟨position+1,rest,count,names⟩

end Bamts.Regexp
