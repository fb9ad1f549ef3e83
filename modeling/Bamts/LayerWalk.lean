import Mathlib.Data.List.Nodup
import Mathlib.Data.Prod.Lex
import Mathlib.Order.WellFounded

/-! A walk over layers of named things that answers one name a call, while the layers change between the calls. A layer is
listed once, when it is entered, a name is looked up again when its turn comes, and what a nearer layer has hides the same
name of a farther one. -/
set_option linter.all false
namespace Bamts.LayerWalk

variable {α β : Type} [DecidableEq β]

-- The layers at one moment: what a layer lists, and whether it has a name and lets it be answered.
structure View (α β : Type) where
  listed : α → List β
  described : α → β → Option Bool

def View.shows (v : View α β) (a : α) (b : β) : Option Bool := if b ∈ v.listed a then v.described a b else none

structure Cursor (α β : Type) where
  layers : List α
  entered : Bool
  remaining : List β
  visited : List β

structure Pick (β : Type) where
  found : Option β
  remaining : List β
  visited : List β

def pick (described : β → Option Bool) : List β → List β → Pick β
  | [], visited => ⟨none,[],visited⟩
  | b :: rest, visited =>
    if b ∈ visited then pick described rest visited
    else match described b with
      | none => pick described rest visited
      | some true => ⟨some b,rest,b :: visited⟩
      | some false => pick described rest (b :: visited)

def listedFirst (v : View α β) (layers : List α) : List β := layers.head?.elim [] v.listed

def walk (v : View α β) : List α → List β → List β → Option β × Cursor α β
  | [], _, visited => (none,⟨[],false,[],visited⟩)
  | a :: layers, remaining, visited =>
    let p := pick (v.described a) remaining visited
    match p.found with
    | some b => (some b,⟨a :: layers,true,p.remaining,p.visited⟩)
    | none => walk v layers (listedFirst v layers) p.visited

def Cursor.pending (c : Cursor α β) (v : View α β) : List β := if c.entered then c.remaining else listedFirst v c.layers

def next (v : View α β) (c : Cursor α β) : Option β × Cursor α β := walk v c.layers (c.pending v) c.visited

structure Picked (described : β → Option Bool) (names visited : List β) (p : Pick β) : Prop where
  kept : visited ⊆ p.visited
  found : ∀ b, p.found = some b → b ∉ visited ∧ b ∈ p.visited ∧ described b = some true ∧ p.remaining.length < names.length
  done : p.found = none → p.remaining = []
  absent : ∀ b ∈ names, b ∉ p.visited → b ∉ p.remaining → described b = none
  pending : ∀ b ∈ names, b ∉ visited → described b = some true → p.found = some b ∨ p.found.isSome = true ∧ b ∈ p.remaining ∧ b ∉ p.visited
  fresh : ∀ b, b ∉ visited → described b = none → b ∉ p.visited

theorem pickSpec (described : β → Option Bool) (names visited) : Picked described names visited (pick described names visited) := by
  induction names generalizing visited with
  | nil =>
    exact ⟨fun _ member => member,fun _ found => (by cases found),fun _ => rfl,fun _ member => absurd member List.not_mem_nil,
      fun _ member => absurd member List.not_mem_nil,fun _ fresh _ => fresh⟩
  | cons b rest ih =>
    unfold pick
    by_cases old : b ∈ visited
    · rw [if_pos old]
      have later := ih visited
      refine ⟨later.kept,fun x found => ?_,later.done,fun x member new gone => ?_,fun x member new shown => ?_,later.fresh⟩
      · obtain ⟨new,now,shown,shorter⟩ := later.found x found
        exact ⟨new,now,shown,Nat.lt_succ_of_lt shorter⟩
      · rcases List.mem_cons.mp member with rfl | member
        · exact absurd (later.kept old) new
        · exact later.absent x member new gone
      · rcases List.mem_cons.mp member with rfl | member
        · exact absurd old new
        · exact later.pending x member new shown
    · rw [if_neg old]
      cases look : described b with
      | none =>
        have later := ih visited
        refine ⟨later.kept,fun x found => ?_,later.done,fun x member new gone => ?_,fun x member new shown => ?_,later.fresh⟩
        · obtain ⟨new,now,shown,shorter⟩ := later.found x found
          exact ⟨new,now,shown,Nat.lt_succ_of_lt shorter⟩
        · rcases List.mem_cons.mp member with rfl | member
          · exact look
          · exact later.absent x member new gone
        · rcases List.mem_cons.mp member with rfl | member
          · rw [look] at shown
            cases shown
          · exact later.pending x member new shown
      | some enumerable =>
        cases enumerable with
        | true =>
          refine ⟨fun _ member => List.mem_cons_of_mem _ member,fun x found => ?_,fun none_ => (by cases none_),fun x member new gone => ?_,
            fun x member new shown => ?_,fun x new hidden member => ?_⟩
          · cases found
            exact ⟨old,List.mem_cons_self,look,Nat.lt_succ_self _⟩
          · rcases List.mem_cons.mp member with rfl | member
            · exact absurd List.mem_cons_self new
            · exact absurd member gone
          · rcases List.mem_cons.mp member with rfl | member
            · exact .inl rfl
            · by_cases same : x = b
              · exact .inl (same ▸ rfl)
              · exact .inr ⟨rfl,member,fun inside => (List.mem_cons.mp inside).elim same new⟩
          · rcases List.mem_cons.mp member with rfl | member
            · rw [look] at hidden
              cases hidden
            · exact new member
        | false =>
          have later := ih (b :: visited)
          refine ⟨fun x member => later.kept (List.mem_cons_of_mem _ member),fun x found => ?_,later.done,fun x member new gone => ?_,
            fun x member new shown => ?_,fun x new hidden => later.fresh x (fun inside => ?_) hidden⟩
          · obtain ⟨new,now,shown,shorter⟩ := later.found x found
            exact ⟨fun member => new (List.mem_cons_of_mem _ member),now,shown,Nat.lt_succ_of_lt shorter⟩
          · rcases List.mem_cons.mp member with rfl | member
            · exact absurd (later.kept List.mem_cons_self) new
            · exact later.absent x member new gone
          · have apart : x ≠ b := by
              rintro rfl
              rw [look] at shown
              cases shown
            exact later.pending x ((List.mem_cons.mp member).resolve_left apart) (fun inside => (List.mem_cons.mp inside).elim apart new) shown
          · rcases List.mem_cons.mp inside with rfl | inside
            · rw [look] at hidden
              cases hidden
            · exact new inside

theorem showsIff {v : View α β} {a b enumerable} :
    v.shows a b = some enumerable ↔ b ∈ v.listed a ∧ v.described a b = some enumerable := by
  unfold View.shows
  split
  · exact ⟨fun shown => ⟨by assumption,shown⟩,fun both => both.2⟩
  · exact ⟨fun none_ => (by cases none_),fun both => absurd both.1 (by assumption)⟩

theorem showsNone {v : View α β} {a b} : v.shows a b = none ↔ (b ∈ v.listed a → v.described a b = none) := by
  unfold View.shows
  split
  · exact ⟨fun none_ _ => none_,fun lacks => lacks (by assumption)⟩
  · exact ⟨fun _ member => absurd member (by assumption),fun _ => rfl⟩

/- What one call does. A name that is still open, or was until it was answered, was looked up and missing in every layer that
was left behind, and in what was taken from the layer the walk stands in; a name the nearer layers lack is answered or stays
in line. -/
structure Walked (v : View α β) (layers : List α) (remaining visited : List β) (r : Option β × Cursor α β) : Prop where
  parts : r.2.layers <:+ layers
  kept : visited ⊆ r.2.visited
  found : ∀ b, r.1 = some b → b ∉ visited ∧ b ∈ r.2.visited ∧ r.2.entered = true ∧ ∃ a rest, r.2.layers = a :: rest ∧ v.described a b = some true
  done : r.1 = none → r.2.layers = []
  shorter : r.1.isSome = true →
    r.2.layers.length < layers.length ∨ r.2.layers.length = layers.length ∧ r.2.remaining.length < remaining.length
  absent : ∀ near e far b, layers = near ++ e :: far →
    (b ∉ r.2.visited ∨ r.1 = some b) ∧ r.2.layers.length ≤ far.length ∨ b ∉ r.2.visited ∧ r.2.layers = e :: far ∧ b ∉ r.2.remaining →
    near = [] ∧ (b ∈ remaining → v.described e b = none) ∨ v.shows e b = none
  pending : ∀ near x far b, layers = near ++ x :: far → (∀ e ∈ near, v.described e b = none) → b ∉ visited → v.shows x b = some true →
    (near = [] → b ∈ remaining) →
    r.1 = some b ∨ r.1.isSome = true ∧ b ∉ r.2.visited ∧ ∃ near', near' <:+ near ∧ r.2.layers = near' ++ x :: far ∧ (near' = [] → b ∈ r.2.remaining)

theorem walkStop {v : View α β} {a layers remaining visited b}
    (found : (pick (v.described a) remaining visited).found = some b) : walk v (a :: layers) remaining visited =
    (some b,⟨a :: layers,true,(pick (v.described a) remaining visited).remaining,(pick (v.described a) remaining visited).visited⟩) := by
  rw [walk,found]

theorem walkOn {v : View α β} {a layers remaining visited} (none_ : (pick (v.described a) remaining visited).found = none) :
    walk v (a :: layers) remaining visited = walk v layers (listedFirst v layers) (pick (v.described a) remaining visited).visited := by
  rw [walk,none_]

theorem walkSpec (v : View α β) (layers remaining visited) : Walked v layers remaining visited (walk v layers remaining visited) := by
  induction layers generalizing remaining visited with
  | nil =>
    refine ⟨List.nil_suffix,fun _ member => member,fun _ found => (by cases found),fun _ => rfl,fun found => (by cases found),?_,?_⟩
    · exact fun near _ _ _ parts => absurd parts.symm (List.append_ne_nil_of_right_ne_nil near (List.cons_ne_nil _ _))
    · exact fun near _ _ _ parts => absurd parts.symm (List.append_ne_nil_of_right_ne_nil near (List.cons_ne_nil _ _))
  | cons a layers ih =>
    have picked := pickSpec (v.described a) remaining visited
    cases stop : (pick (v.described a) remaining visited).found with
    | some b =>
      rw [walkStop stop]
      obtain ⟨new,now,shown,shorter⟩ := picked.found b stop
      refine ⟨List.suffix_refl _,picked.kept,fun x found => ?_,fun none_ => (by cases none_),fun _ => .inr ⟨rfl,shorter⟩,?_,?_⟩
      · cases found
        exact ⟨new,now,rfl,a,layers,rfl,shown⟩
      · intro near e far x parts place
        cases near with
        | nil =>
          cases parts
          rcases place with ⟨_,low⟩ | ⟨open_,_,gone⟩
          · exact absurd low (Nat.not_succ_le_self _)
          · exact .inl ⟨rfl,fun member => picked.absent x member open_ gone⟩
        | cons first later =>
          have long := congrArg List.length parts
          simp only [List.length_cons,List.length_append] at long
          rcases place with ⟨_,low⟩ | ⟨_,here,_⟩
          · simp only [List.length_cons] at low
            omega
          · have := congrArg List.length here
            simp only [List.length_cons] at this
            omega
      · intro near x far y parts lacks open_ shows member
        cases near with
        | nil =>
          cases parts
          rcases picked.pending y (member rfl) open_ (showsIff.mp shows).2 with here | ⟨_,inside,left⟩
          · exact .inl (stop.symm.trans here)
          · exact .inr ⟨rfl,left,[],List.nil_suffix,rfl,fun _ => inside⟩
        | cons first later =>
          cases parts
          refine .inr ⟨rfl,?_,a :: later,List.suffix_refl _,rfl,fun empty => (by cases empty)⟩
          exact picked.fresh y open_ (lacks a List.mem_cons_self)
    | none =>
      rw [walkOn stop]
      have later := ih (listedFirst v layers) (pick (v.described a) remaining visited).visited
      refine ⟨later.parts.trans (List.suffix_cons _ _),fun x member => later.kept (picked.kept member),fun x found => ?_,later.done,fun some_ => ?_,?_,?_⟩
      · obtain ⟨new,now,rest⟩ := later.found x found
        exact ⟨fun member => new (picked.kept member),now,rest⟩
      · have := later.parts.length_le
        exact .inl (Nat.lt_succ_of_le this)
      · intro near e far x parts place
        cases near with
        | nil =>
          cases parts
          have open_ : x ∉ (pick (v.described a) remaining visited).visited := by
            rcases place with ⟨left | answered,_⟩ | ⟨left,_⟩
            · exact fun inside => left (later.kept inside)
            · exact (later.found x answered).1
            · exact fun inside => left (later.kept inside)
          refine .inl ⟨rfl,fun member => picked.absent x member open_ ?_⟩
          rw [picked.done stop]
          exact List.not_mem_nil
        | cons first rest =>
          cases parts
          refine .inr ?_
          rcases later.absent rest e far x rfl place with ⟨empty,lacks⟩ | none_
          · subst empty
            exact showsNone.mpr lacks
          · exact none_
      · intro near x far y parts lacks open_ shows member
        cases near with
        | nil =>
          cases parts
          rcases picked.pending y (member rfl) open_ (showsIff.mp shows).2 with here | ⟨some_,_⟩
          · rw [stop] at here
            cases here
          · rw [stop] at some_
            cases some_
        | cons first rest =>
          cases parts
          have new := picked.fresh y open_ (lacks a List.mem_cons_self)
          have listed : rest = [] → y ∈ listedFirst v (rest ++ x :: far) := by
            rintro rfl
            exact (showsIff.mp shows).1
          rcases later.pending rest x far y rfl (fun e inside => lacks e (List.mem_cons_of_mem _ inside)) new shows listed with here | ⟨some_,left,near,short,rest_⟩
          · exact .inl here
          · exact .inr ⟨some_,left,near,short.trans (List.suffix_cons _ _),rest_⟩

theorem firstSame {v v' : View α β} {layers} (listed : ∀ a ∈ layers, v.listed a = v'.listed a) :
    listedFirst v layers = listedFirst v' layers := by
  cases layers with
  | nil => rfl
  | cons a layers => exact listed a List.mem_cons_self

theorem walkSame {v v' : View α β} {layers} (listed : ∀ a ∈ layers, v.listed a = v'.listed a)
    (described : ∀ a ∈ layers, v.described a = v'.described a) (remaining visited) :
    walk v layers remaining visited = walk v' layers remaining visited := by
  induction layers generalizing remaining visited with
  | nil => rfl
  | cons a layers ih =>
    have first : listedFirst v layers = listedFirst v' layers := firstSame fun b member => listed b (List.mem_cons_of_mem _ member)
    have later := ih (fun b member => listed b (List.mem_cons_of_mem _ member)) fun b member => described b (List.mem_cons_of_mem _ member)
    unfold walk
    rw [described a List.mem_cons_self,first]
    simp only [later]

theorem nextSame {v v' : View α β} {c} (listed : ∀ a ∈ c.layers, v.listed a = v'.listed a)
    (described : ∀ a ∈ c.layers, v.described a = v'.described a) : next v c = next v' c := by
  unfold next Cursor.pending
  rw [firstSame listed,walkSame listed described]

structure Call (α β : Type) where
  view : View α β
  before : Cursor α β

def Call.yielded (k : Call α β) : Option β := (next k.view k.before).1
def Call.after (k : Call α β) : Cursor α β := (next k.view k.before).2

def Call.visits (k : Call α β) (a : α) : Prop := a ∈ k.before.layers ∧ a ∉ k.after.layers.tail

inductive Calls (start : Cursor α β) : List (Call α β) → Cursor α β → Prop
  | none : Calls start [] start
  | more {calls : List (Call α β)} {c : Cursor α β} (before : Calls start calls c) (v : View α β) : Calls start (calls ++ [⟨v,c⟩]) (next v c).2

theorem callsLast {start c : Cursor α β} {calls : List (Call α β)} {k : Call α β} (run : Calls start (calls ++ [k]) c) : c = k.after := by
  generalize whole : calls ++ [k] = all at run
  cases run with
  | none => exact absurd whole (List.append_ne_nil_of_right_ne_nil _ (List.cons_ne_nil _ _))
  | more before v =>
    obtain ⟨_,same⟩ := List.append_inj' whole rfl
    rw [List.cons.inj same |>.1]
    rfl

def Cursor.start (layers : List α) : Cursor α β := ⟨layers,false,[],[]⟩

theorem suffixPlace {near far xs : List α} {e} (parts : xs <:+ near ++ e :: far) :
    xs.length ≤ far.length ∨ ∃ near', near' <:+ near ∧ xs = near' ++ e :: far := by
  obtain ⟨gone,whole⟩ := parts
  rcases List.append_eq_append_iff.mp whole with ⟨later,rfl,rest⟩ | ⟨later,rfl,rest⟩
  · exact .inr ⟨later,List.suffix_append _ _,rest⟩
  · cases later with
    | nil => exact .inr ⟨[],List.nil_suffix,by simpa using rest.symm⟩
    | cons first later =>
      have long := congrArg List.length rest
      simp only [List.length_cons,List.length_append] at long
      exact .inl (by omega)

structure Told (all : List α) (calls : List (Call α β)) (c : Cursor α β) : Prop where
  parts : c.layers <:+ all
  yielded : ∀ k ∈ calls, ∀ b, k.yielded = some b → b ∈ c.visited
  once : (calls.filterMap Call.yielded).Nodup
  absent : ∀ near e far b, all = near ++ e :: far → b ∉ c.visited →
    c.layers.length ≤ far.length ∨ c.layers = e :: far ∧ c.entered = true ∧ b ∉ c.remaining → ∃ k ∈ calls, k.visits e ∧ k.view.shows e b = none

theorem Told.lacks {all : List α} {calls : List (Call α β)} {c : Cursor α β} (told : Told all calls c) (distinct : all.Nodup) (v : View α β)
    {near far : List α} {e : α} {b : β} (whole : all = near ++ e :: far)
    (place : (b ∉ (next v c).2.visited ∨ (next v c).1 = some b) ∧ (next v c).2.layers.length ≤ far.length ∨
      b ∉ (next v c).2.visited ∧ (next v c).2.layers = e :: far ∧ b ∉ (next v c).2.remaining) :
    ∃ k ∈ calls ++ [⟨v,c⟩], k.visits e ∧ k.view.shows e b = none := by
  have walked := walkSpec v c.layers (c.pending v) c.visited
  have earlier : ∀ {P : Call α β → Prop}, (∃ k ∈ calls, P k) → ∃ k ∈ calls ++ [⟨v,c⟩], P k :=
    fun ⟨k,member,holds⟩ => ⟨k,List.mem_append_left _ member,holds⟩
  have open_ : b ∉ c.visited := by
    rcases place with ⟨left | answered,_⟩ | ⟨left,_⟩
    · exact fun inside => left (walked.kept inside)
    · exact (walked.found b answered).1
    · exact fun inside => left (walked.kept inside)
  rcases suffixPlace (whole ▸ told.parts) with behind | ⟨nearer,_,here⟩
  · exact earlier (told.absent near e far b whole open_ (.inl behind))
  · have visits : Call.visits ⟨v,c⟩ e := by
      refine ⟨here ▸ List.mem_append_right _ List.mem_cons_self,fun inside => ?_⟩
      rw [whole] at distinct
      have apart : e ∉ far := (List.nodup_cons.mp (List.nodup_append.mp distinct).2.1).1
      rcases place with ⟨_,low⟩ | ⟨_,now,_⟩
      · have below : (next v c).2.layers <:+ near ++ e :: far := whole ▸ walked.parts.trans told.parts
        have inner : (next v c).2.layers <:+ far := List.suffix_of_suffix_length_le below (List.suffix_append_of_suffix (List.suffix_cons e far)) low
        exact apart (inner.subset (List.mem_of_mem_tail inside))
      · exact apart (by rw [Call.after,now] at inside; exact inside)
    have now : ∀ none_, ∃ k ∈ calls ++ [⟨v,c⟩], k.visits e ∧ k.view.shows e b = none :=
      fun none_ => ⟨⟨v,c⟩,List.mem_append_right _ (List.mem_singleton.mpr rfl),visits,none_⟩
    rcases walked.absent nearer e far b here place with ⟨first,lacks⟩ | none_
    · subst first
      by_cases inside : b ∈ c.pending v
      · exact now (showsNone.mpr fun _ => lacks inside)
      · unfold Cursor.pending at inside
        split at inside
        · rename_i entered
          exact earlier (told.absent near e far b whole open_ (.inr ⟨here,entered,inside⟩))
        · rw [here] at inside
          exact now (showsNone.mpr fun listed => absurd listed inside)
    · exact now none_

theorem Told.more {all} {calls : List (Call α β)} {c} (told : Told all calls c) (distinct : all.Nodup) (v) :
    Told all (calls ++ [⟨v,c⟩]) (next v c).2 := by
  have walked := walkSpec v c.layers (c.pending v) c.visited
  refine ⟨walked.parts.trans told.parts,fun k member b answered => ?_,?_,fun near e far b whole open_ place => ?_⟩
  · rcases List.mem_append.mp member with old | now
    · exact walked.kept (told.yielded k old b answered)
    · obtain rfl := List.mem_singleton.mp now
      exact (walked.found b answered).2.1
  · rw [List.filterMap_append]
    refine List.nodup_append.mpr ⟨told.once,?_,fun b old b' now same => ?_⟩
    · cases answer : Call.yielded (⟨v,c⟩ : Call α β) with
      | none => simp [answer]
      | some b => simp [answer]
    · subst same
      obtain ⟨k,member,before⟩ := List.mem_filterMap.mp old
      obtain ⟨k',here,answered⟩ := List.mem_filterMap.mp now
      obtain rfl := List.mem_singleton.mp here
      exact (walked.found b answered).1 (told.yielded k member b before)
  · refine told.lacks distinct v whole ?_
    rcases place with low | ⟨here,_,gone⟩
    · exact .inl ⟨.inl open_,low⟩
    · exact .inr ⟨open_,here,gone⟩

theorem callsTold {all} {calls : List (Call α β)} {c} (distinct : all.Nodup) (run : Calls (.start all) calls c) :
    Told all calls c := by
  induction run with
  | none =>
    refine ⟨List.suffix_refl _,fun _ member => absurd member List.not_mem_nil,List.nodup_nil,fun near e far b whole _ place => ?_⟩
    rcases place with low | ⟨_,entered,_⟩
    · have long := congrArg List.length whole
      rw [List.length_append,List.length_cons] at long
      have low : all.length ≤ far.length := low
      omega
    · cases entered
  | more _ v ih => exact ih.more distinct v

theorem answeredFrom {all : List α} {calls : List (Call α β)} {c : Cursor α β} (distinct : all.Nodup) (run : Calls (.start all) calls c)
    {v : View α β} {b : β} (answered : (next v c).1 = some b) : ∃ near a far, all = near ++ a :: far ∧ (next v c).2.layers = a :: far ∧
      v.described a b = some true ∧ ∀ e ∈ near, ∃ k ∈ calls ++ [⟨v,c⟩], k.visits e ∧ k.view.shows e b = none := by
  have told := callsTold distinct run
  have walked := walkSpec v c.layers (c.pending v) c.visited
  obtain ⟨_,_,_,a,far,here,shown⟩ := walked.found b answered
  obtain ⟨near,whole⟩ := walked.parts.trans told.parts
  have parts : all = near ++ a :: far := by rw [← whole,here]
  refine ⟨near,a,far,parts,here,shown,fun e member => ?_⟩
  obtain ⟨first,later,rfl⟩ := List.append_of_mem member
  have split : all = first ++ e :: (later ++ a :: far) := by
    rw [parts,List.append_assoc]
    rfl
  refine told.lacks distinct v split (.inl ⟨.inr answered,?_⟩)
  · have : (next v c).2.layers.length = far.length+1 := congrArg List.length here
    rw [this,List.length_append,List.length_cons]
    omega

/- A name that a layer shows at every call, and no nearer one has at any, is answered or still in line. -/
theorem stillPending {near far : List α} {a} {b : β} {calls c} (run : Calls (.start (near ++ a :: far)) calls c)
    (shown : ∀ k ∈ calls, k.view.shows a b = some true) (lacks : ∀ k ∈ calls, ∀ e ∈ near, k.view.described e b = none) :
    (∃ k ∈ calls, k.yielded = some b) ∨
    b ∉ c.visited ∧ ∃ near', near' <:+ near ∧ c.layers = near' ++ a :: far ∧ (near' = [] → c.entered = true → b ∈ c.remaining) := by
  induction run with
  | none => exact .inr ⟨List.not_mem_nil,near,List.suffix_refl _,rfl,fun _ entered => (by cases entered)⟩
  | @more calls c before v ih =>
    have last : (⟨v,c⟩ : Call α β) ∈ calls ++ [⟨v,c⟩] := List.mem_append_right _ (List.mem_singleton.mpr rfl)
    rcases ih (fun k member => shown k (List.mem_append_left _ member)) (fun k member => lacks k (List.mem_append_left _ member)) with
      ⟨k,member,answered⟩ | ⟨open_,nearer,short,here,left⟩
    · exact .inl ⟨k,List.mem_append_left _ member,answered⟩
    · have shows : v.shows a b = some true := shown _ last
      have inLine : nearer = [] → b ∈ c.pending v := by
        rintro rfl
        unfold Cursor.pending
        split
        · exact left rfl (by assumption)
        · rw [here]
          exact (showsIff.mp shows).1
      rcases (walkSpec v c.layers (c.pending v) c.visited).pending nearer a far b here (fun e member => lacks _ last e (short.subset member)) open_ shows
        inLine with answered | ⟨_,open_',nearer',shorter,here',left'⟩
      · exact .inl ⟨_,last,answered⟩
      · exact .inr ⟨open_',nearer',shorter.trans short,here',fun first _ => left' first⟩

theorem shownAnswered {near far : List α} {a} {b : β} {calls c} (run : Calls (.start (near ++ a :: far)) calls c)
    (shown : ∀ k ∈ calls, k.view.shows a b = some true) (lacks : ∀ k ∈ calls, ∀ e ∈ near, k.view.described e b = none) (over_ : c.layers = []) :
    ∃ k ∈ calls, k.yielded = some b := by
  rcases stillPending run shown lacks with answered | ⟨_,_,_,here,_⟩
  · exact answered
  · rw [over_] at here
    exact absurd here.symm (List.append_ne_nil_of_right_ne_nil _ (List.cons_ne_nil _ _))

def Cursor.measure (c : Cursor α β) : Nat ×ₗ Nat ×ₗ Nat := toLex (c.layers.length,toLex (if c.entered then 0 else 1,c.remaining.length))

theorem answerLess (v : View α β) (c) {b} (answered : (next v c).1 = some b) : (next v c).2.measure < c.measure := by
  have walked := walkSpec v c.layers (c.pending v) c.visited
  obtain ⟨_,_,entered,_⟩ := walked.found b answered
  have entered : (next v c).2.entered = true := entered
  unfold Cursor.measure
  rw [entered,Prod.Lex.toLex_lt_toLex]
  rcases walked.shorter (Option.isSome_iff_exists.mpr ⟨b,answered⟩) with fewer | ⟨same,shorter⟩
  · exact .inl fewer
  · refine .inr ⟨same,Prod.Lex.toLex_lt_toLex.mpr ?_⟩
    cases before : c.entered with
    | false => exact .inl Nat.zero_lt_one
    | true =>
      unfold Cursor.pending at shorter
      rw [if_pos before] at shorter
      refine .inr ⟨rfl,?_⟩
      unfold next Cursor.pending
      rw [if_pos before]
      exact shorter

theorem answersEnd (views : Nat → View α β) (cursors : Nat → Cursor α β) (follows : ∀ n, cursors (n+1) = (next (views n) (cursors n)).2) :
    ∃ n, (next (views n) (cursors n)).1 = none := by
  by_contra always
  have falls : ∀ n, (cursors (n+1)).measure < (cursors n).measure := by
    intro n
    obtain ⟨b,answered⟩ := Option.ne_none_iff_exists'.mp fun none_ => always ⟨n,none_⟩
    rw [follows]
    exact answerLess (views n) (cursors n) answered
  exact (wellFounded_iff_isEmpty_descending_chain.mp wellFounded_lt).elim ⟨fun n => (cursors n).measure,falls⟩

end Bamts.LayerWalk
