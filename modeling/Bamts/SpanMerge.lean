import Bamts.SpanClosure
import Mathlib.Data.List.Sort

/-! Spans of code points in the order of their starts, joined where they meet or touch. -/
set_option linter.all false
namespace Bamts.SpanClosure

def CodePoints (span : Span) : Prop := span.1 ≤ span.2 ∧ span.2 ≤ 0x10ffff

def saturatingSucc (value : Nat) : Nat := min (value+1) (2^32-1)

def mergeFrom (current : Span) : List Span → List Span
  | [] => [current]
  | next :: rest => if next.1 ≤ saturatingSucc current.2 then mergeFrom (current.1,max current.2 next.2) rest else current :: mergeFrom next rest

def Earlier (a b : Span) : Prop := a.1 ≤ b.1

instance : DecidableRel Earlier := fun a b => inferInstanceAs (Decidable (a.1 ≤ b.1))
instance : IsTrans Span Earlier := ⟨fun _ _ _ first later => Nat.le_trans first later⟩
instance : Std.Total Earlier := ⟨fun a b => Nat.le_total a.1 b.1⟩

def mergeSorted : List Span → List Span
  | [] => []
  | first :: rest => mergeFrom first rest

def merge (spans : List Span) : List Span := mergeSorted (spans.insertionSort Earlier)

def Separated (spans : List Span) : Prop := spans.Pairwise (fun a b => a.2+1 < b.1) ∧ ∀ span ∈ spans, CodePoints span

theorem coversCons {span spans value} : Covers (span :: spans) value ↔ Within span value ∨ Covers spans value := by
  simp only [Covers,List.mem_cons,or_and_right,exists_or,exists_eq_left]

theorem withinJoined {a b} (first : CodePoints a) (later : CodePoints b) (order : a.1 ≤ b.1) (close : b.1 ≤ a.2+1) (value) :
    Within (a.1,max a.2 b.2) value ↔ Within a value ∨ Within b value := by
  simp only [Within]
  omega

theorem mergeFromSpec (current rest) (sorted : (current :: rest).Pairwise Earlier) (points : ∀ span ∈ current :: rest, CodePoints span) :
    (∀ value, Covers (mergeFrom current rest) value ↔ Covers (current :: rest) value) ∧ Separated (mergeFrom current rest) ∧
      ∀ span ∈ mergeFrom current rest, current.1 ≤ span.1 := by
  induction rest generalizing current with
  | nil =>
    refine ⟨fun _ => Iff.rfl,⟨List.pairwise_singleton _ _,points⟩,fun span only => ?_⟩
    rw [List.mem_singleton.mp only]
  | cons next rest ih =>
    have here := points current List.mem_cons_self
    have there := points next (List.mem_cons_of_mem _ List.mem_cons_self)
    obtain ⟨before,sorted'⟩ := List.pairwise_cons.mp sorted
    have order : current.1 ≤ next.1 := before next List.mem_cons_self
    rw [mergeFrom]
    split
    · rename_i near
      have close : next.1 ≤ current.2+1 := near.trans (Nat.min_le_left _ _)
      have joined : CodePoints (current.1,max current.2 next.2) := ⟨here.1.trans (Nat.le_max_left _ _),Nat.max_le.mpr ⟨here.2,there.2⟩⟩
      obtain ⟨same,apart,after⟩ := ih (current.1,max current.2 next.2)
        (List.pairwise_cons.mpr ⟨fun span among => before span (List.mem_cons_of_mem _ among),(List.pairwise_cons.mp sorted').2⟩)
        (List.forall_mem_cons.mpr ⟨joined,fun span among => points span (List.mem_cons_of_mem _ (List.mem_cons_of_mem _ among))⟩)
      refine ⟨fun value => ?_,apart,after⟩
      rw [same,coversCons,coversCons,coversCons,withinJoined here there order close,or_assoc]
    · rename_i far
      have gap : current.2+1 < next.1 := by
        have small := here.2
        simp only [saturatingSucc] at far
        omega
      obtain ⟨same,apart,after⟩ := ih next sorted' fun span among => points span (List.mem_cons_of_mem _ among)
      refine ⟨fun value => ?_,⟨List.pairwise_cons.mpr ⟨fun span among => gap.trans_le (after span among),apart.1⟩,
        List.forall_mem_cons.mpr ⟨here,apart.2⟩⟩,List.forall_mem_cons.mpr ⟨Nat.le_refl _,fun span among => order.trans (after span among)⟩⟩
      rw [coversCons,coversCons,same]

theorem mergeSpec (spans) (points : ∀ span ∈ spans, CodePoints span) :
    (∀ value, Covers (merge spans) value ↔ Covers spans value) ∧ Separated (merge spans) := by
  have sorted := List.pairwise_insertionSort Earlier spans
  have same : ∀ span, span ∈ spans.insertionSort Earlier ↔ span ∈ spans := fun _ => List.mem_insertionSort Earlier
  have covers : ∀ value, Covers (spans.insertionSort Earlier) value ↔ Covers spans value := fun value => by simp only [Covers,same]
  have points' : ∀ span ∈ spans.insertionSort Earlier, CodePoints span := fun span among => points span ((same span).mp among)
  unfold merge
  cases list : spans.insertionSort Earlier with
  | nil =>
    rw [list] at covers
    exact ⟨covers,List.Pairwise.nil,fun _ none => absurd none List.not_mem_nil⟩
  | cons first rest =>
    rw [list] at covers sorted points'
    obtain ⟨merged,apart,-⟩ := mergeFromSpec first rest sorted points'
    exact ⟨fun value => (merged value).trans (covers value),apart⟩

end Bamts.SpanClosure
