import Bamts.RegexpReads

/-! What the parser reads of a written class, item by item. -/
set_option linter.all false
namespace Bamts.Regexp.Parse
open Effect

section
variable {α β : Type} {p : Parse α} {f : α → Parse β} {left : List Nat} {Q : α → Prop} {R : β → Prop}

theorem Misses.then (first : Misses p left Q) (later : ∀ a, Q a → Gives (f a) R) : Misses (p >>= f) left R := by
  intro position count names b t done
  obtain ⟨a,u,before,after⟩ := bindDone done
  exact (later a (first _ _ _ _ _ before) u).ok after

theorem Gives.misses (gives : Gives p Q) (left) : Misses p left Q := fun _ _ _ _ _ done => (gives _).ok done

theorem missesState {f} (later : ∀ position count names, Misses (f ⟨position,left,count,names⟩) left R) : Misses (read >>= f) left R :=
  fun position count names b t done => later position count names position count names b t done

end

section
variable {unicode : Bool} {rest after tail : List Nat} {c : Spelling} {e : Nat}

theorem readsItemEscape {value} (reads : Reads (escapeCharacter unicode e true) tail rest value) (routed : Routed true e) :
    Reads (parseClassItem unicode) (0x5c :: e :: tail) rest (.character value) := by
  have shared := routed.shared
  simp only [List.mem_cons,List.not_mem_nil,or_false,not_or] at shared
  refine Reads.after ?_
  refine Reads.after ?_
  dsimp only
  rw [if_neg (by omega),if_neg (by omega),if_neg (by omega),if_neg (by omega),if_neg (by omega),if_neg (by omega),if_neg (by omega)]
  exact reads.done

theorem missesItemEscape {bad} (misses : Misses (escapeCharacter unicode e true) (tail ++ rest) bad) (routed : Routed true e) :
    Misses (parseClassItem unicode) (0x5c :: e :: tail ++ rest) fun item => ∀ value, item = .character value → bad value := by
  have shared := routed.shared
  simp only [List.mem_cons,List.not_mem_nil,or_false,not_or] at shared
  refine Misses.after ?_
  refine Misses.after ?_
  dsimp only
  rw [if_neg (by omega),if_neg (by omega),if_neg (by omega),if_neg (by omega),if_neg (by omega),if_neg (by omega),if_neg (by omega)]
  refine misses.then fun value holds => givesPure ?_
  rintro other ⟨⟩
  exact holds

theorem spelledStart (c : Spelling) : (∃ value, c = .raw value) ∨ c = .backspace ∨ ∃ e tail, c.text = 0x5c :: e :: tail ∧ (∀ value, c ≠ .raw value) ∧ c ≠ .backspace := by
  cases c with
  | raw value => exact .inl ⟨value,rfl⟩
  | backspace => exact .inr (.inl rfl)
  | _ => exact .inr (.inr ⟨_,_,rfl,fun _ same => (by cases same),fun same => (by cases same)⟩)

theorem readsItemCharacter (legal : c.legal unicode true rest = true) (served : c.served = true) :
    Reads (parseClassItem unicode) c.text rest (.character c.value) := by
  rcases spelledStart c with ⟨value,rfl⟩ | rfl | ⟨e,tail,text,escape,notBack⟩
  · simp only [Spelling.legal,Bool.and_eq_true,decide_eq_true_eq,Bool.not_eq_true',if_true] at legal
    obtain ⟨⟨small,plain⟩,alone⟩ := legal
    obtain ⟨token,tail,text,first,reads⟩ := @readsRaw unicode rest value small alone
    have notSlash : token ≠ 0x5c := by
      rintro rfl
      rcases first with rfl | high
      · cases plain
      · omega
    rw [show (Spelling.raw value).text = token :: tail from text]
    refine Reads.after ?_
    dsimp only
    rw [if_pos notSlash]
    exact reads.done
  · exact fun _ _ _ => rfl
  · obtain ⟨reads,routed⟩ := readsSpelled text escape notBack legal served
    rw [text]
    exact readsItemEscape reads routed

-- A spelling the source has not: the escape of a control letter, or of a surrogate in braces.
theorem missesSpelled {inClass} (legal : c.legal unicode inClass after = true) (unserved : c.served = false) (rest) :
    ∃ e tail, c.text = 0x5c :: e :: tail ∧ Routed inClass e ∧ Misses (escapeCharacter unicode e inClass) (tail ++ rest) fun value => value ≠ c.value := by
  cases c with
  | controlLetter letter =>
    refine ⟨0x63,[letter],rfl,routedCharacter (by decide),?_⟩
    cases unicode with
    | true =>
      have run : escapeCharacter true 0x63 inClass = error "invalid identity escape in Unicode mode" := by cases inClass <;> rfl
      rw [run]
      exact missesError _ _ _
    | false =>
      refine missesPure ?_ _
      exact fun same => by
        simp only [Spelling.value] at same
        omega
  | braced digits =>
    simp only [Spelling.legal,Bool.and_eq_true,decide_eq_true_eq,Bool.not_eq_true',List.isEmpty_eq_false_iff] at legal
    obtain ⟨⟨⟨rfl,some_⟩,hex⟩,small⟩ := legal
    refine ⟨0x75,_,rfl,routedCharacter (by decide),?_⟩
    exact Misses.peeked (f := fun ahead => if true && decide (ahead = some 0x7b) then bracedEscape else unicodeEscape true)
      (missesBraced some_ hex (by omega) unserved rest _)
  | _ => cases unserved

theorem missesItemCharacter (legal : c.legal unicode true after = true) (unserved : c.served = false) (rest) :
    Misses (parseClassItem unicode) (c.text ++ rest) fun item => item ≠ .character c.value := by
  obtain ⟨e,tail,text,routed,misses⟩ := missesSpelled legal unserved rest
  rw [text]
  intro position count names item t done
  have bad := missesItemEscape misses routed position count names item t done
  rintro rfl
  exact bad _ rfl rfl

theorem escapeLetters {letter} (known : (escapeItem letter).isSome = true) : letter ∈ [0x64,0x44,0x77,0x57,0x73,0x53] := by
  by_contra none_
  simp only [List.mem_cons,List.not_mem_nil,or_false,not_or] at none_
  obtain ⟨digit,notDigit,word,notWord,space,notSpace⟩ := none_
  unfold escapeItem at known
  rw [if_neg digit,if_neg notDigit,if_neg word,if_neg notWord,if_neg space,if_neg notSpace] at known
  cases known

theorem readsItemClass {letter} (known : (escapeItem letter).isSome = true) (rest) :
    Reads (parseClassItem unicode) [0x5c,letter] rest ((escapeItem letter).getD .digit) := by
  have among := escapeLetters known
  simp only [List.mem_cons,List.not_mem_nil,or_false] at among
  rcases among with rfl | rfl | rfl | rfl | rfl | rfl <;> exact fun _ _ _ => rfl

theorem spelledHead (legal : c.legal unicode true after = true) : ∃ token tail, c.text = token :: tail ∧ token ≠ 0x5d := by
  rcases spelledStart c with ⟨value,rfl⟩ | rfl | ⟨e,tail,text,-,-⟩
  · simp only [Spelling.legal,Bool.and_eq_true,decide_eq_true_eq,Bool.not_eq_true',if_true] at legal
    obtain ⟨⟨small,plain⟩,-⟩ := legal
    change ∃ token tail, utf16 value = token :: tail ∧ token ≠ 0x5d
    unfold utf16
    split
    · exact ⟨value,[],rfl,fun same => by rw [same] at plain; cases plain⟩
    · exact ⟨_,_,rfl,by omega⟩
  · exact ⟨_,_,rfl,by decide⟩
  · exact ⟨_,_,text,by decide⟩

theorem itemHead {item : ItemSpelling} (legal : item.legal unicode after = true) : ∃ token tail, item.text = token :: tail ∧ token ≠ 0x5d := by
  cases item with
  | single char =>
    simp only [ItemSpelling.legal,Bool.and_eq_true] at legal
    exact spelledHead legal.1
  | range start stop =>
    simp only [ItemSpelling.legal,Bool.and_eq_true] at legal
    obtain ⟨token,tail,text,differ⟩ := spelledHead legal.1.1
    exact ⟨token,_,by rw [ItemSpelling.text,text,List.cons_append],differ⟩
  | escape letter => exact ⟨_,_,rfl,by decide⟩

theorem dashClosed (after rest) : dashAhead (after ++ [0x5d]) = dashAhead (after ++ 0x5d :: rest) := by
  cases after with
  | nil => rfl
  | cons first after =>
    cases after with
    | nil => rfl
    | cons second after => rfl

theorem closedLegal (legal : c.legal unicode true (after ++ [0x5d]) = true) (rest) : c.legal unicode true (after ++ 0x5d :: rest) = true :=
  legalClosed (by simp [Closing]) (legalCut legal)

theorem itemClosed {item : ItemSpelling} (legal : item.legal unicode (after ++ [0x5d]) = true) (rest) :
    item.legal unicode (after ++ 0x5d :: rest) = true := by
  cases item with
  | single char =>
    simp only [ItemSpelling.legal,Bool.and_eq_true] at legal ⊢
    exact ⟨closedLegal legal.1 rest,dashClosed after rest ▸ legal.2⟩
  | range start stop =>
    simp only [ItemSpelling.legal,Bool.and_eq_true] at legal ⊢
    refine ⟨⟨?_,closedLegal legal.1.2 rest⟩,legal.2⟩
    have before := legal.1.1
    rw [← List.append_assoc] at before ⊢
    exact closedLegal before rest
  | escape letter =>
    simp only [ItemSpelling.legal,Bool.and_eq_true] at legal ⊢
    exact ⟨legal.1,dashClosed after rest ▸ legal.2⟩

end

theorem dashTest (ahead) : dashAhead ahead = true ↔ ahead.head? = some 0x2d ∧ ahead[1]? ≠ some 0x5d := by
  simp [dashAhead]

def rangeOf (left right : ClassItem) : Parse ClassItem :=
  match classRange left right with
  | some range => return range
  | none => error "invalid character class range"

def rangeAhead (unicode : Bool) (left : ClassItem) : Parse ClassItem := do
  let ahead := (← read).left
  if dashAhead ahead then skip 1 >>= fun _ => parseClassItem unicode >>= rangeOf left else return left

def classItem (unicode : Bool) : Parse ClassItem := parseClassItem unicode >>= rangeAhead unicode

def itemsAfter (unicode : Bool) (fuel : Nat) (item : ClassItem) : Parse (List ClassItem) := do return item :: (← parseClassItems unicode fuel false)

theorem itemsStep (unicode first fuel token) (plain : token ≠ 0x5d) (left position count names) :
    parseClassItems unicode (fuel+1) first ⟨position,token :: left,count,names⟩ =
      (classItem unicode >>= itemsAfter unicode fuel) ⟨position,token :: left,count,names⟩ := by
  rw [parseClassItems,doneBind (show peek ⟨position,token :: left,count,names⟩ = .ok (some token) _ from rfl)]
  dsimp only
  rw [if_neg fun both => plain both.1,classItem,bind_assoc]
  refine congrFun (congrArg (parseClassItem unicode >>= ·) (funext fun item => ?_)) _
  rw [rangeAhead,bind_assoc]
  congr 1
  funext s
  by_cases dash : dashAhead s.left = true
  · rw [if_pos ((dashTest _).mp dash),if_pos dash,bind_assoc]
    congr 1
    funext nothing
    rw [bind_assoc]
    congr 1
    funext right
    cases known : classRange item right with
    | none => simp only [rangeOf,known]; rfl
    | some range => simp only [rangeOf,known]; rfl
  · rw [if_neg fun both => dash ((dashTest _).mpr both),if_neg dash]
    rfl

section
variable {unicode : Bool} {rest : List Nat} {item : ItemSpelling}

theorem dashBefore {c : Spelling} {after} (legal : c.legal unicode true after = true) (rest) :
    dashAhead (0x2d :: c.text ++ rest) = true := by
  obtain ⟨token,tail,head,differ⟩ := spelledHead legal
  rw [dashTest,head]
  exact ⟨rfl,fun same => differ (Option.some.inj same)⟩

theorem readsAlone {one text} (reads : Reads (parseClassItem unicode) text rest one) (alone : dashAhead rest = false) :
    Reads (classItem unicode) text rest one := by
  refine reads.last (readsState fun position count names => ?_)
  rw [List.nil_append]
  rw [if_neg (by rw [alone]; decide)]
  exact readsPure _ _

theorem readsItem (legal : item.legal unicode rest = true) (served : item.served = true) : Reads (classItem unicode) item.text rest item.item := by
  cases item with
  | single char =>
    simp only [ItemSpelling.legal,Bool.and_eq_true,Bool.not_eq_true'] at legal
    exact readsAlone (readsItemCharacter legal.1 served) legal.2
  | escape letter =>
    simp only [ItemSpelling.legal,Bool.and_eq_true,Bool.not_eq_true'] at legal
    exact readsAlone (readsItemClass legal.1 _) legal.2
  | range start stop =>
    simp only [ItemSpelling.legal,Bool.and_eq_true,decide_eq_true_eq] at legal
    simp only [ItemSpelling.served,Bool.and_eq_true] at served
    obtain ⟨⟨startLegal,stopLegal⟩,ordered⟩ := legal
    refine (readsItemCharacter startLegal served.1).bind (readsState fun position count names => ?_)
    rw [if_pos (dashBefore stopLegal rest)]
    refine Reads.skipped ((readsItemCharacter stopLegal served.2).last ?_)
    dsimp only [rangeOf,classRange]
    rw [if_pos ordered]
    exact readsPure _ _

theorem rangeEnds {left right range} (known : classRange left right = some range) :
    ∃ start stop, left = .character start ∧ right = .character stop ∧ range = .range start stop := by
  cases left with
  | character start =>
    cases right with
    | character stop =>
      simp only [classRange] at known
      split at known
      · exact ⟨start,stop,rfl,rfl,(Option.some.inj known).symm⟩
      · cases known
    | _ => cases known
  | _ => cases known

theorem givesSingle (unicode) : Gives (parseClassItem unicode) fun item => ∀ start stop, item ≠ .range start stop := by
  refine givesAfter fun token => ?_
  cases token with
  | none => exact givesError _
  | some token =>
    refine (givesAfter fun value => givesPure fun _ _ same => by cases same).ite (givesAfter fun escaped => ?_)
    cases escaped with
    | none => exact givesError _
    | some escaped =>
      have plain : ∀ item, (∀ start stop, item ≠ .range start stop) → Gives (pure item : Parse ClassItem) fun item => ∀ start stop, item ≠ .range start stop :=
        fun item holds => givesPure holds
      refine (plain _ fun _ _ same => by cases same).ite ((plain _ fun _ _ same => by cases same).ite ((plain _ fun _ _ same => by cases same).ite
        ((plain _ fun _ _ same => by cases same).ite ((plain _ fun _ _ same => by cases same).ite ((plain _ fun _ _ same => by cases same).ite
          ((plain _ fun _ _ same => by cases same).ite (givesAfter fun value => plain _ fun _ _ same => by cases same)))))))

theorem givesRange {left right bad}
    (ranged : ∀ start stop, left = .character start → right = .character stop → bad (.range start stop)) : Gives (rangeOf left right) bad := by
  unfold rangeOf
  cases known : classRange left right with
  | none => exact givesError _
  | some range =>
    obtain ⟨start,stop,rfl,rfl,rfl⟩ := rangeEnds known
    exact givesPure (ranged start stop rfl rfl)

theorem givesRanged {left bad} (alone : bad left) (ranged : ∀ start stop, left = .character start → bad (.range start stop)) :
    Gives (rangeAhead unicode left) bad := by
  refine givesAfter fun s => ?_
  refine Gives.ite (givesAfter fun nothing => givesAfter fun right => ?_) (givesPure alone)
  exact givesRange fun start stop first _ => ranged start stop first

theorem missesItem {after} (legal : item.legal unicode after = true) (unserved : item.served = false) (rest) :
    Misses (classItem unicode) (item.text ++ rest) fun got => got ≠ item.item := by
  cases item with
  | escape letter => cases unserved
  | single char =>
    simp only [ItemSpelling.legal,Bool.and_eq_true] at legal
    refine (missesItemCharacter legal.1 unserved rest).then fun left differs => givesRanged differs fun start stop same => ?_
    rintro ⟨⟩
  | range start stop =>
    simp only [ItemSpelling.legal,Bool.and_eq_true] at legal
    obtain ⟨⟨startLegal,stopLegal⟩,-⟩ := legal
    rw [ItemSpelling.text,List.append_assoc]
    cases startServed : start.served with
    | false =>
      refine Misses.then (Q := fun left => left ≠ .character start.value ∧ ∀ start stop, left ≠ .range start stop) ?_ fun left differs => givesRanged ?_ ?_
      · exact fun position count names left t done =>
          ⟨missesItemCharacter startLegal startServed _ position count names left t done,(givesSingle unicode _).ok done⟩
      · exact differs.2 _ _
      · rintro first last rfl ⟨⟩
        exact differs.1 rfl
    | true =>
      have stopUnserved : stop.served = false := by
        rw [ItemSpelling.served,startServed] at unserved
        exact unserved
      refine Misses.read (readsItemCharacter startLegal startServed) ?_
      refine missesState fun position count names => ?_
      rw [if_pos (dashBefore stopLegal rest)]
      refine Misses.skipped ((missesItemCharacter stopLegal stopUnserved rest).then fun right differs => givesRange ?_)
      rintro first last - rfl ⟨⟩
      exact differs rfl

theorem itemsText {items} (item) :
    ClassSpelling.itemsText (item :: items) = item.text ++ ClassSpelling.itemsText items := List.flatMap_cons

theorem Reads.agree {α} {p q : Parse α} {text rest a}
    (same : ∀ position count names, p ⟨position,text ++ rest,count,names⟩ = q ⟨position,text ++ rest,count,names⟩) (reads : Reads q text rest a) :
    Reads p text rest a := fun position count names => (same position count names).trans (reads position count names)

theorem readsItems (items fuel) (enough : items.length < fuel) (rest first)
    (some_ : first = true → items ≠ []) (legal : ClassSpelling.itemsLegal unicode items = true) (served : items.all ItemSpelling.served = true) :
    Reads (parseClassItems unicode fuel first) (ClassSpelling.itemsText items ++ [0x5d]) rest (items.map ItemSpelling.item) := by
  induction items generalizing fuel first with
  | nil =>
    obtain ⟨fuel,rfl⟩ := Nat.exists_eq_succ_of_ne_zero (Nat.ne_of_gt enough)
    cases first with
    | true => exact absurd rfl (some_ rfl)
    | false => exact fun _ _ _ => rfl
  | cons item items ih =>
    obtain ⟨fuel,rfl⟩ := Nat.exists_eq_succ_of_ne_zero (Nat.ne_of_gt (Nat.zero_lt_of_lt enough))
    simp only [ClassSpelling.itemsLegal,Bool.and_eq_true] at legal
    simp only [List.all_cons,Bool.and_eq_true] at served
    obtain ⟨token,tail,head,differ⟩ := itemHead legal.1
    have later := ih fuel (Nat.lt_of_succ_lt_succ enough) false (fun same => by cases same) legal.2 served.2
    rw [itemsText,List.append_assoc]
    refine Reads.agree (q := classItem unicode >>= itemsAfter unicode fuel) (fun position count names => ?_) ((readsItem ?_ served.1).bind (f := itemsAfter unicode fuel) (later.done (g := fun more => item.item :: more)))
    · rw [head]
      exact itemsStep unicode first fuel token differ _ position count names
    · rw [List.append_assoc]
      exact itemClosed legal.1 rest

theorem missesItems (items fuel rest first)
    (legal : ClassSpelling.itemsLegal unicode items = true) (unserved : items.all ItemSpelling.served = false) :
    Misses (parseClassItems unicode fuel first) (ClassSpelling.itemsText items ++ [0x5d] ++ rest) fun got => got ≠ items.map ItemSpelling.item := by
  induction items generalizing fuel first with
  | nil => cases unserved
  | cons item items ih =>
    cases fuel with
    | zero => exact (givesFail _).misses _
    | succ fuel =>
      simp only [ClassSpelling.itemsLegal,Bool.and_eq_true] at legal
      obtain ⟨token,tail,head,differ⟩ := itemHead legal.1
      rw [itemsText,List.append_assoc,List.append_assoc]
      have step : Misses (classItem unicode >>= itemsAfter unicode fuel) (item.text ++ (ClassSpelling.itemsText items ++ ([0x5d] ++ rest)))
          fun got => got ≠ (item :: items).map ItemSpelling.item := by
        cases served : item.served with
        | false =>
          refine (missesItem legal.1 served _).then fun one differs => givesAfter fun more => givesPure fun same => ?_
          exact differs (List.cons.inj same).1
        | true =>
          have others : items.all ItemSpelling.served = false := by
            rw [List.all_cons,served] at unserved
            exact unserved
          refine Misses.read (readsItem (itemClosed legal.1 rest) served) ?_
          have later := ih fuel false legal.2 others
          rw [List.append_assoc] at later
          exact later.then fun more differs => givesPure fun same => differs (List.cons.inj same).2
      intro position count names got t done
      rw [head,List.cons_append,itemsStep unicode first fuel token differ,← List.cons_append,← head] at done
      exact step _ _ _ _ _ done

theorem givesSome (fuel) : Gives (parseClassItems unicode fuel true) fun items => items ≠ [] := by
  cases fuel with
  | zero => exact givesFail _
  | succ fuel =>
    refine givesAfter fun token => ?_
    cases token with
    | none => exact givesError _
    | some token =>
      dsimp only
      rw [if_neg (by simp)]
      refine givesAfter fun left => givesAfter fun s => Gives.ite (givesAfter fun nothing => givesAfter fun right => ?_)
        (givesAfter fun items => givesPure (List.cons_ne_nil _ _))
      cases classRange left right with
      | none => exact givesError _
      | some range => exact givesAfter fun items => givesPure (List.cons_ne_nil _ _)

theorem itemsLength (items) (legal : ClassSpelling.itemsLegal unicode items = true) :
    items.length ≤ (ClassSpelling.itemsText items).length := by
  induction items with
  | nil => exact Nat.le_refl _
  | cons item items ih =>
    simp only [ClassSpelling.itemsLegal,Bool.and_eq_true] at legal
    obtain ⟨token,tail,head,-⟩ := itemHead legal.1
    have later := ih legal.2
    rw [itemsText,head,List.length_append,List.length_cons,List.length_cons]
    omega

def classTail (set : ClassSpelling) : List Nat := (if set.negated then [0x5e] else []) ++ (ClassSpelling.itemsText set.items ++ [0x5d])

variable {set : ClassSpelling}

theorem classHead (legal : set.legal unicode = true) (rest) : decide ((classTail set ++ rest).head? = some 0x5e) = set.negated := by
  obtain ⟨negated,items⟩ := set
  simp only [ClassSpelling.legal,Bool.and_eq_true,Bool.or_eq_true,decide_eq_true_eq] at legal
  cases negated with
  | true => rfl
  | false =>
    obtain ⟨-,same | differ⟩ := legal
    · cases same
    · simp only [classTail,Bool.false_eq_true,if_false,List.nil_append,List.append_assoc]
      cases texts : ClassSpelling.itemsText items with
      | nil => rfl
      | cons token tail =>
        rw [texts,List.head?_cons] at differ
        simpa using differ

theorem readsClass (legal : set.legal unicode = true) (served : set.served = true) (rest) :
    Reads (parseClass unicode) (classTail set) rest set.tree := by
  have head := classHead legal rest
  obtain ⟨negated,items⟩ := set
  simp only [ClassSpelling.legal,Bool.and_eq_true] at legal
  simp only [ClassSpelling.served,Bool.and_eq_true,Bool.not_eq_true',List.isEmpty_eq_false_iff] at served
  have long := itemsLength items legal.1
  have whole : Reads (do
      let items ← parseClassItems unicode ((← read).left.length+1) true
      return ⟨negated,items⟩) (ClassSpelling.itemsText items ++ [0x5d]) rest (ClassSpelling.tree ⟨negated,items⟩) := by
    refine readsState fun position count names => (readsItems items _ ?_ rest true (fun _ => served.1) legal.1 served.2).done
    simp only [List.length_append]
    omega
  refine Reads.peeked ?_
  rw [head]
  cases negated with
  | true => exact Reads.skipped whole
  | false => exact whole

theorem missesClass (legal : set.legal unicode = true) (unserved : set.served = false) (rest) :
    Misses (parseClass unicode) (classTail set ++ rest) fun got => got ≠ set.tree := by
  have head := classHead legal rest
  obtain ⟨negated,items⟩ := set
  simp only [ClassSpelling.legal,Bool.and_eq_true] at legal
  have inner : ∀ fuel, Misses (parseClassItems unicode fuel true) (ClassSpelling.itemsText items ++ [0x5d] ++ rest) fun got => got ≠ items.map ItemSpelling.item := by
    intro fuel
    cases items with
    | nil => exact (givesSome fuel).misses _
    | cons item items => exact missesItems _ fuel rest true legal.1 unserved
  have whole : Misses (do
      let items ← parseClassItems unicode ((← read).left.length+1) true
      return ⟨negated,items⟩) (ClassSpelling.itemsText items ++ [0x5d] ++ rest) fun got => got ≠ ClassSpelling.tree ⟨negated,items⟩ := by
    refine missesState fun position count names => (inner _).then fun got differs => givesPure fun same => ?_
    exact differs (congrArg CharacterClass.items same)
  refine Misses.peeked ?_
  rw [head]
  cases negated with
  | true => exact Misses.skipped whole
  | false => exact whole

end

end Bamts.Regexp.Parse
