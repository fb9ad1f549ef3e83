import Bamts.BytecodeVerify
import Bamts.IntervalSweep

/-! The handler check of a function: its sweep over the sorted ranges accepts just what comparing every two ranges accepts. -/
set_option linter.all false
namespace Bamts.Bytecode
open Outcome (seqOk rejectIfOk eachFrom eachFromOk)
open IntervalSweep (Before Nested sweep close sweepExact)

def ExceptionHandler.range (h : ExceptionHandler) : Nat × Nat := (h.start.get.toNat,h.stop.get.toNat)

theorem beforeRanges {a b} (before : handlerBefore a b) : Before a.1.range b.1.range := by
  rcases before with less | ⟨same,wider⟩
  · exact .inl (UInt32.lt_iff_toNat_lt.mp less)
  · exact .inr ⟨congrArg UInt32.toNat same,UInt32.le_iff_toNat_le.mp wider⟩

instance : Std.Total handlerBefore := ⟨fun a b => by
  unfold handlerBefore
  simp only [UInt32.lt_iff_toNat_lt,UInt32.le_iff_toNat_le,← UInt32.toNat_inj]
  omega⟩

instance : IsTrans (ExceptionHandler × Nat) handlerBefore := ⟨fun a b c left right => by
  unfold handlerBefore at *
  simp only [UInt32.lt_iff_toNat_lt,UInt32.le_iff_toNat_le,← UInt32.toNat_inj] at *
  omega⟩

theorem popClosedEnds (start opened) :
    (popClosed start opened).map (·.1.toNat) = close start.toNat (opened.map (·.1.toNat)) := by
  induction opened with
  | nil => rfl
  | cons entry rest ih =>
    unfold popClosed close
    by_cases shut : entry.1 ≤ start
    · rw [if_pos shut,List.map_cons,List.dropWhile_cons_of_pos (by simpa using UInt32.le_iff_toNat_le.mp shut)]
      exact ih
    · rw [if_neg shut,List.map_cons,List.dropWhile_cons_of_neg (by simpa [UInt32.le_iff_toNat_le] using shut)]

theorem sweepHandlersOk {functionIndex opened sorted} :
    sweepHandlers functionIndex opened sorted = .ok () ↔
      sweep (opened.map (·.1.toNat)) (sorted.map (·.1.range)) = true := by
  induction sorted generalizing opened with
  | nil => simp [sweepHandlers,sweep]
  | cons entry rest ih =>
    obtain ⟨range,index⟩ := entry
    have ends := popClosedEnds range.start.get opened
    rw [List.map_cons,sweep,ExceptionHandler.range,← ends,Bool.and_eq_true]
    unfold sweepHandlers
    cases innermost : popClosed range.start.get opened with
    | nil =>
      rw [ih]
      simp
    | cons parent outer =>
      dsimp only
      by_cases crosses : range.stop.get > parent.1
      · rw [if_pos crosses]
        have past : ¬range.stop.get.toNat ≤ parent.1.toNat := by simpa using UInt32.lt_iff_toNat_lt.mp crosses
        simp [past]
      · rw [if_neg crosses,ih]
        have fits : range.stop.get.toNat ≤ parent.1.toNat := by simpa [UInt32.lt_iff_toNat_lt] using crosses
        simp [fits]

/-- Every range is in bounds and any two are disjoint or one inside the other: the quadratic definition of what the sweep
accepts, for handlers in any order. -/
theorem handlersNested (functionIndex : Nat) (f : Function) :
    verifyHandlers functionIndex f = .ok () ↔
      (∀ h ∈ f.handlers, HandlerFits f h) ∧ f.handlers.Pairwise fun a b => Nested a.range b.range := by
  have bounds : eachFrom (verifyHandlerBounds functionIndex f) 0 f.handlers = .ok () ↔ ∀ h ∈ f.handlers, HandlerFits f h := by
    simp only [eachFromOk,handlerBoundsOk]
    exact ⟨fun each h member => by obtain ⟨i,at_⟩ := List.mem_iff_getElem?.mp member; exact each i h at_,
      fun all i h at_ => all h (List.mem_of_getElem? at_)⟩
  unfold verifyHandlers
  rw [seqOk,bounds]
  refine and_congr_right fun fits => ?_
  have perm := List.perm_insertionSort handlerBefore f.handlers.zipIdx
  have ordered := (List.pairwise_insertionSort handlerBefore f.handlers.zipIdx).imp beforeRanges
  have proper : ∀ r ∈ (f.handlers.zipIdx.insertionSort handlerBefore).map (·.1.range), r.1 < r.2 := by
    intro r member
    obtain ⟨entry,inside,rfl⟩ := List.mem_map.mp member
    exact (fits entry.1 (List.fst_mem_of_mem_zipIdx (perm.mem_iff.mp inside))).proper
  rw [sweepHandlersOk,List.map_nil,sweepExact (List.pairwise_map.mpr ordered) proper,List.pairwise_map]
  have symmetric : ∀ {a b : ExceptionHandler × Nat}, Nested a.1.range b.1.range → Nested b.1.range a.1.range := fun nested => nested.symm
  have places : f.handlers.zipIdx.map Prod.fst = f.handlers := List.zipIdx_map_fst ..
  rw [perm.pairwise_iff symmetric]
  conv_rhs => rw [← places,List.pairwise_map]

end Bamts.Bytecode
