import Mathlib.Data.List.Basic
import Mathlib.Data.List.Count
import Mathlib.Algebra.Group.Nat.Defs

/-! Lists of spans of numbers, and the closing of such a list under rules: a rule that has a point in the list adds those of its
spans both of whose ends are not there yet. The scans go on until one adds nothing. -/
set_option linter.all false
namespace Bamts.SpanClosure

abbrev Span := Nat × Nat

def Within (span : Span) (value : Nat) : Prop := span.1 ≤ value ∧ value ≤ span.2

def Covers (spans : List Span) (value : Nat) : Prop := ∃ span ∈ spans, Within span value

def contains (spans : List Span) (value : Nat) : Bool := spans.any fun span => decide (span.1 ≤ value) && decide (value ≤ span.2)

theorem containsIff {spans value} : contains spans value = true ↔ Covers spans value := by
  simp only [contains,List.any_eq_true,Bool.and_eq_true,decide_eq_true_eq]
  rfl

theorem coversAppend {spans more value} : Covers (spans ++ more) value ↔ Covers spans value ∨ Covers more value := by
  simp only [Covers,List.mem_append,or_and_right,exists_or]

theorem coversOne {span value} : Covers [span] value ↔ Within span value := by
  simp only [Covers,List.mem_singleton,exists_eq_left]

def Ended (spans : List Span) (span : Span) : Prop := Covers spans span.1 ∧ Covers spans span.2

structure Rule where
  points : List Nat
  spans : List Span

def Met (spans : List Span) (rule : Rule) : Prop := ∃ point ∈ rule.points, Covers spans point

structure Work where
  result : List Span
  changed : Bool

def push (work : Work) (span : Span) : Work :=
  if !contains work.result span.1 || !contains work.result span.2 then ⟨work.result ++ [span],true⟩ else work

def apply (work : Work) (rule : Rule) : Work := if rule.points.any (contains work.result) then rule.spans.foldl push work else work

def pass (rules : List Rule) (work : Work) : Work := rules.foldl apply work

def round (rules : List Rule) (spans : List Span) : Work := pass rules ⟨spans,false⟩

def close (rules : List Rule) : Nat → List Span → Option (List Span)
  | 0, _ => none
  | fuel+1, spans => if (round rules spans).changed then close rules fuel (round rules spans).result else some (round rules spans).result

section
variable {spans more : List Span} {rules : List Rule} {rule : Rule} {span : Span} {work : Work} {value : Nat}

theorem metIff : rule.points.any (contains spans) = true ↔ Met spans rule := by
  simp only [List.any_eq_true,containsIff,Met]

theorem endedIff : (!contains spans span.1 || !contains spans span.2) = false ↔ Ended spans span := by
  rw [Bool.or_eq_false_iff,Bool.not_eq_false',Bool.not_eq_false',containsIff,containsIff]
  rfl

theorem pushEnded (ended : Ended work.result span) : push work span = work := if_neg (by rw [endedIff.mpr ended]; decide)

theorem pushOpen (open_ : ¬Ended work.result span) : push work span = ⟨work.result ++ [span],true⟩ :=
  if_pos (by
    cases answer : (!contains work.result span.1 || !contains work.result span.2) with
    | true => rfl
    | false => exact absurd (endedIff.mp answer) open_)

theorem applyMet (met : Met work.result rule) : apply work rule = rule.spans.foldl push work := if_pos (metIff.mpr met)

theorem applyUnmet (unmet : ¬Met work.result rule) : apply work rule = work := if_neg fun any => unmet (metIff.mp any)

theorem Covers.grow (covers : Covers spans value) (more) : Covers (spans ++ more) value := coversAppend.mpr (.inl covers)

theorem Met.grow (met : Met spans rule) (more) : Met (spans ++ more) rule := by
  obtain ⟨point,member,covers⟩ := met
  exact ⟨point,member,covers.grow more⟩

theorem Ended.grow (ended : Ended spans span) (more) : Ended (spans ++ more) span := ⟨ended.1.grow more,ended.2.grow more⟩

def Preserved (rules : List Rule) (part : List Span → Prop) : Prop :=
  ∀ spans, part spans → ∀ rule ∈ rules, Met spans rule → ∀ span ∈ rule.spans, ¬Ended spans span → part (spans ++ [span])

theorem pushesKeep {part} (keeps : Preserved rules part) (member : rule ∈ rules) (todo : List Span) (inside : ∀ span ∈ todo, span ∈ rule.spans)
    (met : Met work.result rule) (here : part work.result) : part (todo.foldl push work).result := by
  induction todo generalizing work with
  | nil => exact here
  | cons span todo ih =>
    have later : ∀ s ∈ todo, s ∈ rule.spans := fun s among => inside s (List.mem_cons_of_mem _ among)
    rw [List.foldl_cons]
    by_cases ended : Ended work.result span
    · rw [pushEnded ended]
      exact ih later met here
    · rw [pushOpen ended]
      exact ih later (met.grow _) (keeps _ here rule member met span (inside span List.mem_cons_self) ended)

theorem applyKeeps {part} (keeps : Preserved rules part) (member : rule ∈ rules) (here : part work.result) :
    part (apply work rule).result := by
  by_cases met : Met work.result rule
  · rw [applyMet met]
    exact pushesKeep keeps member rule.spans (fun _ among => among) met here
  · rw [applyUnmet met]
    exact here

theorem passKeeps {part} (keeps : Preserved rules part) (here : part work.result) : part (pass rules work).result := by
  have run : ∀ todo, (∀ rule ∈ todo, rule ∈ rules) → ∀ w, part w.result → part (pass todo w).result := by
    intro todo
    induction todo with
    | nil => exact fun _ w here => here
    | cons rule todo ih =>
      intro inside w here
      exact ih (fun r among => inside r (List.mem_cons_of_mem _ among)) _ (applyKeeps keeps (inside rule List.mem_cons_self) here)
  exact run rules (fun _ among => among) work here

theorem roundKeeps {part} (keeps : Preserved rules part) (here : part spans) : part (round rules spans).result :=
  @passKeeps rules ⟨spans,false⟩ part keeps here

def pending (rules : List Rule) (spans : List Span) : Nat :=
  (rules.flatMap Rule.spans).countP fun span => !contains spans span.1 || !contains spans span.2

def Ordered (rules : List Rule) : Prop := ∀ rule ∈ rules, ∀ span ∈ rule.spans, span.1 ≤ span.2

theorem countLess {α : Type} {l : List α} {p q} (less : ∀ x ∈ l, q x = true → p x = true) {x} (member : x ∈ l) (was : p x = true)
    (gone : q x = false) : l.countP q < l.countP p := by
  obtain ⟨before,after,rfl⟩ := List.append_of_mem member
  have first : before.countP q ≤ before.countP p := List.countP_mono_left fun y among => less y (List.mem_append_left _ among)
  have later : after.countP q ≤ after.countP p :=
    List.countP_mono_left fun y among => less y (List.mem_append_right _ (List.mem_cons_of_mem _ among))
  simp only [List.countP_append,List.countP_cons,was,gone,if_true]
  simp only [Bool.false_eq_true,if_false]
  omega

theorem pendingPush (ordered : Ordered rules) (member : rule ∈ rules) (inside : span ∈ rule.spans) (open_ : ¬Ended spans span) :
    pending rules (spans ++ [span]) < pending rules spans := by
  have upright := ordered rule member span inside
  have now : Ended (spans ++ [span]) span :=
    ⟨coversAppend.mpr (.inr (coversOne.mpr ⟨Nat.le_refl _,upright⟩)),coversAppend.mpr (.inr (coversOne.mpr ⟨upright,Nat.le_refl _⟩))⟩
  refine countLess (fun other _ pends => ?_) (List.mem_flatMap.mpr ⟨rule,member,inside⟩) ?_ (endedIff.mpr now)
  · refine Bool.of_not_eq_false fun ended => ?_
    rw [endedIff.mpr ((endedIff.mp ended).grow [span])] at pends
    exact Bool.noConfusion pends
  · exact Bool.of_not_eq_false fun ended => open_ (endedIff.mp ended)

def Still (rules : List Rule) (spans : List Span) : Prop := ∀ rule ∈ rules, Met spans rule → ∀ span ∈ rule.spans, Ended spans span

def Advances (rules : List Rule) (before after : Work) : Prop := after.changed = true ∧ pending rules after.result < pending rules before.result

theorem Advances.push (ordered : Ordered rules) (member : rule ∈ rules) (inside : span ∈ rule.spans) (open_ : ¬Ended work.result span) :
    Advances rules work (push work span) := by
  rw [pushOpen open_]
  exact ⟨rfl,pendingPush ordered member inside open_⟩

theorem Advances.trans {a b c} (first : Advances rules a b) (later : c = b ∨ Advances rules b c) : Advances rules a c := by
  rcases later with rfl | later
  · exact first
  · exact ⟨later.1,Nat.lt_trans later.2 first.2⟩

theorem pushesAdvance (ordered : Ordered rules) (member : rule ∈ rules) (todo : List Span) (inside : ∀ span ∈ todo, span ∈ rule.spans) (work) :
    (todo.foldl push work = work ∧ ∀ span ∈ todo, Ended work.result span) ∨ Advances rules work (todo.foldl push work) := by
  induction todo generalizing work with
  | nil => exact .inl ⟨rfl,fun _ none => absurd none List.not_mem_nil⟩
  | cons span todo ih =>
    have later := fun s among => inside s (List.mem_cons_of_mem span among)
    rw [List.foldl_cons]
    by_cases ended : Ended work.result span
    · rw [pushEnded ended]
      exact (ih later work).imp_left fun still => ⟨still.1,List.forall_mem_cons.mpr ⟨ended,still.2⟩⟩
    · have first := Advances.push ordered member (inside span List.mem_cons_self) ended
      exact .inr (first.trans ((ih later _).imp_left And.left))

theorem passAdvances (ordered : Ordered rules) (work) :
    (pass rules work = work ∧ Still rules work.result) ∨ Advances rules work (pass rules work) := by
  have run : ∀ todo, (∀ rule ∈ todo, rule ∈ rules) → ∀ w,
      (pass todo w = w ∧ Still todo w.result) ∨ Advances rules w (pass todo w) := by
    intro todo
    induction todo with
    | nil => exact fun _ w => .inl ⟨rfl,fun _ none => absurd none List.not_mem_nil⟩
    | cons rule todo ih =>
      intro inside w
      have later := fun w => ih (fun r among => inside r (List.mem_cons_of_mem _ among)) w
      have one : pass (rule :: todo) w = pass todo (apply w rule) := rfl
      rw [one]
      by_cases met : Met w.result rule
      · rw [applyMet met]
        rcases pushesAdvance ordered (inside rule List.mem_cons_self) rule.spans (fun _ among => among) w with ⟨same,ended⟩ | moved
        · rw [same]
          exact (later w).imp_left fun still => ⟨still.1,List.forall_mem_cons.mpr ⟨fun _ => ended,still.2⟩⟩
        · exact .inr (moved.trans ((later _).imp_left And.left))
      · rw [applyUnmet met]
        exact (later w).imp_left fun still => ⟨still.1,List.forall_mem_cons.mpr ⟨fun meets => absurd meets met,still.2⟩⟩
  exact run rules (fun _ among => among) work

theorem foldGrows (todo : List Span) (ended : Ended work.result span) : Ended (todo.foldl push work).result span := by
  induction todo generalizing work with
  | nil => exact ended
  | cons first todo ih =>
    rw [List.foldl_cons]
    by_cases known : Ended work.result first
    · rw [pushEnded known]
      exact ih ended
    · rw [pushOpen known]
      exact ih (ended.grow _)

theorem pushesEnd (ordered : Ordered rules) (member : rule ∈ rules) (todo : List Span) (inside : ∀ span ∈ todo, span ∈ rule.spans) (work)
    (within : span ∈ todo) : Ended (todo.foldl push work).result span := by
  induction todo generalizing work with
  | nil => exact absurd within List.not_mem_nil
  | cons first todo ih =>
    have later := fun s among => inside s (List.mem_cons_of_mem first among)
    rcases List.mem_cons.mp within with rfl | among
    · have upright := ordered rule member span (inside span List.mem_cons_self)
      have now : Ended (push work span).result span := by
        by_cases ended : Ended work.result span
        · rw [pushEnded ended]
          exact ended
        · rw [pushOpen ended]
          exact ⟨coversAppend.mpr (.inr (coversOne.mpr ⟨Nat.le_refl _,upright⟩)),coversAppend.mpr (.inr (coversOne.mpr ⟨upright,Nat.le_refl _⟩))⟩
      exact foldGrows todo now
    · exact ih later _ among

theorem applyEnds (ordered : Ordered rules) (member : rule ∈ rules) (met : Met work.result rule) (within : span ∈ rule.spans) :
    Ended (apply work rule).result span := by
  rw [applyMet met]
  exact pushesEnd ordered member rule.spans (fun _ among => among) work within

inductive Closes (rules : List Rule) : List Span → List Span → Prop where
  | done {spans : List Span} (same : (round rules spans).result = spans) (still : Still rules spans) : Closes rules spans spans
  | again {spans closed : List Span} (later : Closes rules (round rules spans).result closed) : Closes rules spans closed

theorem settled (same : round rules spans = ⟨spans,false⟩) (still : Still rules spans) :
    Closes rules spans spans ∧ ∀ fuel, pending rules spans < fuel → close rules fuel spans = some spans := by
  refine ⟨.done (congrArg Work.result same) still,fun fuel more => ?_⟩
  cases fuel with
  | zero => exact absurd more (Nat.not_lt_zero _)
  | succ fuel => rw [close,same,if_neg Bool.false_ne_true]

theorem closeEnds (ordered : Ordered rules) (spans) :
    ∃ closed, Closes rules spans closed ∧ ∀ fuel, pending rules spans < fuel → close rules fuel spans = some closed := by
  have run : ∀ bound spans, pending rules spans ≤ bound →
      ∃ closed, Closes rules spans closed ∧ ∀ fuel, pending rules spans < fuel → close rules fuel spans = some closed := by
    intro bound
    induction bound with
    | zero =>
      intro spans none
      rcases passAdvances ordered ⟨spans,false⟩ with ⟨same,still⟩ | moved
      · exact ⟨spans,settled same still⟩
      · exact absurd moved.2 (Nat.not_lt.mpr (Nat.le_trans none (Nat.zero_le _)))
    | succ bound ih =>
      intro spans most
      rcases passAdvances ordered ⟨spans,false⟩ with ⟨same,still⟩ | moved
      · exact ⟨spans,settled same still⟩
      · obtain ⟨closed,closes,enough⟩ := ih (round rules spans).result (Nat.le_of_lt_succ (Nat.lt_of_lt_of_le moved.2 most))
        refine ⟨closed,.again closes,fun fuel more => ?_⟩
        cases fuel with
        | zero => exact absurd more (Nat.not_lt_zero _)
        | succ fuel =>
          rw [close,if_pos (show (round rules spans).changed = true from moved.1)]
          exact enough fuel (Nat.lt_of_lt_of_le moved.2 (Nat.le_of_lt_succ more))
  exact run _ spans (Nat.le_refl _)

theorem Closes.still {closed} (closes : Closes rules spans closed) : Still rules closed := by
  induction closes with
  | done same still => exact still
  | again later ih => exact ih

theorem Closes.keeps {part : List Span → Prop} (keeps : ∀ spans, part spans → part (round rules spans).result) {closed}
    (closes : Closes rules spans closed) (here : part spans) : part closed := by
  induction closes with
  | done same still => exact here
  | again later ih => exact ih (keeps _ here)

theorem Closes.preserves {part} (keeps : Preserved rules part) {closed} (closes : Closes rules spans closed)
    (here : part spans) : part closed := closes.keeps (fun _ => roundKeeps keeps) here

end

end Bamts.SpanClosure
