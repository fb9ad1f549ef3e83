import Bamts.FoldFacts

/-! The closing of code point ranges under folding, as the closing of spans under one rule for each range and each single code
point, and the sets of ranges for which it gives just the code points that fold alike. -/
set_option linter.all false
namespace Bamts.Regexp
open SpanClosure

def FoldRange.rule (range : FoldRange) : Rule := ⟨range.points,range.spans⟩

def singletonRule (entry : Nat × Nat) : Rule := ⟨[entry.1,entry.2],[(entry.1,entry.1),(entry.2,entry.2)]⟩

def rangeRules : List Rule := unicodeSimpleFoldRanges.map FoldRange.rule
def singletonRules : List Rule := unicodeSimpleFoldSingletons.map singletonRule
def foldRules : List Rule := rangeRules ++ singletonRules

section
variable {range : FoldRange} {entry : Nat × Nat} {work : Work} {value : Nat}

theorem segmentHitPoints (result range) : segmentHit result range = range.points.any (contains result) := by
  unfold segmentHit FoldRange.points
  induction range.sources with
  | nil => rfl
  | cons source rest ih => simp only [List.any_cons,List.flatMap_cons,List.any_append,List.any_nil,Bool.or_false,ih]

theorem targetSpanUpright (sound : range.Sound) : targetSpan (range.target range.start) (range.target range.stop) = (range.target range.start,range.target range.stop) := by
  have upright := sound.upright
  obtain ⟨first,last⟩ := targetInts sound
  exact if_pos (by omega)

theorem closeRangeRule (sound : range.Sound) (work) : closeRange work range = SpanClosure.apply work range.rule := by
  unfold closeRange SpanClosure.apply
  rw [segmentHitPoints,(shifted sound (Nat.le_refl _) sound.upright).1,(shifted sound sound.upright (Nat.le_refl _)).1]
  dsimp only
  rw [targetSpanUpright sound]
  rfl

theorem pushOnePush (work value) : pushOne work value = push work (value,value) := by
  unfold pushOne push
  rw [Bool.or_self]

theorem closeSingletonRule (work entry) : closeSingleton work entry = SpanClosure.apply work (singletonRule entry) := by
  unfold closeSingleton SpanClosure.apply
  simp only [singletonRule,List.any_cons,List.any_nil,Bool.or_false,List.foldl_cons,List.foldl_nil,pushOnePush]

theorem closeRangesPass (todo : List FoldRange) (sound : ∀ range ∈ todo, range.Sound) (work) :
    todo.foldl closeRange work = pass (todo.map FoldRange.rule) work := by
  induction todo generalizing work with
  | nil => rfl
  | cons range todo ih =>
    rw [List.foldl_cons,closeRangeRule (sound range List.mem_cons_self)]
    exact ih (fun r among => sound r (List.mem_cons_of_mem _ among)) _

theorem closeSingletonsPass (todo : List (Nat × Nat)) (work) : todo.foldl closeSingleton work = pass (todo.map singletonRule) work := by
  induction todo generalizing work with
  | nil => rfl
  | cons entry todo ih =>
    rw [List.foldl_cons,closeSingletonRule]
    exact ih _

theorem passAppend (first later work) : pass (first ++ later) work = pass later (pass first work) := List.foldl_append

theorem closeRoundRules (ranges) : closeRound ranges = round foldRules ranges := by
  unfold closeRound SpanClosure.round foldRules
  rw [passAppend,closeRangesPass _ (fun _ member => soundRange member),closeSingletonsPass]
  rfl

theorem closeLoopRules (fuel ranges) : closeLoop fuel ranges = close foldRules fuel ranges := by
  induction fuel generalizing ranges with
  | zero => rfl
  | succ fuel ih => rw [closeLoop,close,closeRoundRules,ih]

theorem foldRuleCases {rule} (member : rule ∈ foldRules) :
    (∃ range ∈ unicodeSimpleFoldRanges, range.rule = rule) ∨ ∃ entry ∈ unicodeSimpleFoldSingletons, singletonRule entry = rule :=
  (List.mem_append.mp member).imp List.mem_map.mp List.mem_map.mp

theorem rangeRuleMember (member : range ∈ unicodeSimpleFoldRanges) : range.rule ∈ foldRules :=
  List.mem_append_left _ (List.mem_map_of_mem member)

theorem singletonRuleMember (member : entry ∈ unicodeSimpleFoldSingletons) : singletonRule entry ∈ foldRules :=
  List.mem_append_right _ (List.mem_map_of_mem member)

theorem spanCases {span} (inside : span ∈ range.spans) : span = (range.start,range.stop) ∨ span = (range.target range.start,range.target range.stop) := by
  simpa only [FoldRange.spans,List.mem_cons,List.not_mem_nil,or_false] using inside

theorem singletonSpanCases {span} (inside : span ∈ (singletonRule entry).spans) : span = (entry.1,entry.1) ∨ span = (entry.2,entry.2) := by
  simpa only [singletonRule,List.mem_cons,List.not_mem_nil,or_false] using inside

theorem foldRulesOrdered : Ordered foldRules := by
  intro rule member span inside
  rcases foldRuleCases member with ⟨range,among,rfl⟩ | ⟨entry,-,rfl⟩
  · have sound := soundRange among
    have upright := sound.upright
    obtain ⟨first,last⟩ := targetInts sound
    rcases spanCases inside with rfl | rfl
    · exact upright
    · exact (by omega : range.target range.start ≤ range.target range.stop)
  · rcases singletonSpanCases inside with rfl | rfl
    · exact Nat.le_refl _
    · exact Nat.le_refl _

end

end Bamts.Regexp
