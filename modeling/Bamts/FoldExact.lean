import Bamts.FoldClosure

/-! Which lists of code point ranges are closed under folding to just the code points that fold like one of theirs. -/
set_option linter.all false
namespace Bamts.Regexp
open SpanClosure

def FoldsLike (ranges : List Span) (value : Nat) : Prop := ∃ member, Covers ranges member ∧ unicodeSimpleFold value = unicodeSimpleFold member

def MeetsFolds (ranges : List Span) (range : FoldRange) : Prop := ∃ point ∈ range.points, FoldsLike ranges point

-- The ranges, and the whole spans of every table range that has a code point folding like one of theirs, but for the spans both
-- of whose ends the ranges have.
def Spanned (ranges : List Span) (value : Nat) : Prop :=
  Covers ranges value ∨ ∃ range ∈ unicodeSimpleFoldRanges, MeetsFolds ranges range ∧ ∃ span ∈ range.spans, ¬Ended ranges span ∧ Within span value

def singletonImage (value : Nat) : Nat := (singletonTarget value).getD value

structure Foldable (ranges : List Span) : Prop where
  within : ∀ value, Spanned ranges value → FoldsLike ranges value
  reached : ∀ value, FoldsLike ranges value → ∃ near, Spanned ranges near ∧ singletonImage value = singletonImage near

def Linked (ranges : List Span) (value : Nat) : Prop := ∃ near, Spanned ranges near ∧ singletonImage value = singletonImage near

def Filled (ranges spans : List Span) : Prop :=
  ∀ range ∈ unicodeSimpleFoldRanges, ∀ span ∈ range.spans, Ended spans span → Ended ranges span ∨ ∀ value, Within span value → Covers spans value

def Paired (spans : List Span) : Prop :=
  ∀ range ∈ unicodeSimpleFoldRanges, ∀ span ∈ range.spans, span.1+1 < span.2 →
    (singletonFree span.1 = false → Covers spans span.2 → Covers spans span.1) ∧ (singletonFree span.2 = false → Covers spans span.1 → Covers spans span.2)

def FoldAlike (ranges spans : List Span) : Prop :=
  (∀ value, Covers ranges value → Covers spans value) ∧ ∀ value, Covers spans value → FoldsLike ranges value

def Sourced (ranges spans : List Span) : Prop :=
  (∀ value, Covers ranges value → Covers spans value) ∧
    ((∀ value, Covers spans value → FoldsLike ranges value) → ∀ value, Covers spans value → Linked ranges value)

section
variable {ranges spans : List Span} {range : FoldRange} {span : Span} {value : Nat} {work : Work}

theorem containedIff : contained span value = true ↔ Within span value := by
  simp only [contained,Bool.and_eq_true,Nat.ble_eq,Within]

theorem uprightSpan (member : range ∈ unicodeSimpleFoldRanges) (inside : span ∈ range.spans) : span.1 ≤ span.2 :=
  foldRulesOrdered _ (rangeRuleMember member) span inside

theorem crossed (member : range ∈ unicodeSimpleFoldRanges) (inside : span ∈ range.spans) (low : span.1 ≤ value) (high : value < span.2) :
    crossings.testBit value = true := marked (List.mem_flatMap.mpr ⟨range,member,inside⟩) low high

theorem swallowed {range' span'} (member : range ∈ unicodeSimpleFoldRanges) (inside : span ∈ range.spans)
    (member' : range' ∈ unicodeSimpleFoldRanges) (inside' : span' ∈ range'.spans) (ends : Within span span'.1 ∨ Within span span'.2) :
    span.1 ≤ span'.1+1 ∧ span'.2 ≤ span.2+1 := by
  have checked := List.all_eq_true.mp (List.all_eq_true.mp tables.spansSwallow range member) span inside
  rcases Bool.or_eq_true_iff.mp checked with free | checked
  -- No span steps over the place past either end, so none can reach further.
  · have upright := uprightSpan member' inside'
    rw [Bool.and_eq_true] at free
    constructor
    · by_contra far
      have low : span.1 ≤ span'.2 := ends.elim (fun within => Nat.le_trans within.1 upright) And.left
      rw [crossed member' inside' (by omega : span'.1 ≤ span.1-2) (by omega)] at free
      exact Bool.noConfusion free.1
    · by_contra far
      have low : span'.1 ≤ span.2 := ends.elim And.right fun within => Nat.le_trans upright within.2
      rw [crossed member' inside' (by omega : span'.1 ≤ span.2+1) (by omega)] at free
      exact Bool.noConfusion free.2
  have checked := List.all_eq_true.mp (List.all_eq_true.mp checked range' member') span' inside'
  simp only [swallows,Bool.or_eq_true,Bool.and_eq_true,Nat.ble_eq,Bool.not_eq_true'] at checked
  rcases checked with ⟨first,last⟩ | inner
  · rcases ends with ends | ends
    · rw [containedIff.mpr ends] at first
      exact Bool.noConfusion first
    · rw [containedIff.mpr ends] at last
      exact Bool.noConfusion last
  · exact inner

theorem coversPush : Covers (spans ++ [span]) value ↔ Covers spans value ∨ Within span value := by rw [coversAppend,coversOne]

theorem withinEnds (within : Within span value) : value = span.1 ∨ value = span.2 ∨ span.1+1 ≤ value ∧ value+1 ≤ span.2 := by
  obtain ⟨low,high⟩ := within
  omega

theorem filledPush (ranges) : Preserved rangeRules (Filled ranges) := by
  intro spans filled rule member met span' inside' open_ range among span inside ended
  obtain ⟨range',among',rfl⟩ := List.mem_map.mp member
  by_cases known : Ended spans span
  · exact (filled range among span inside known).imp_right fun all value within => (all value within).grow _
  · have ends : Within span' span.1 ∨ Within span' span.2 := by
      by_contra neither
      rw [not_or] at neither
      exact known ⟨(coversPush.mp ended.1).resolve_right neither.1,(coversPush.mp ended.2).resolve_right neither.2⟩
    obtain ⟨low,high⟩ := swallowed among' inside' among inside ends
    refine .inr fun value within => ?_
    rcases withinEnds within with rfl | rfl | inner
    · exact ended.1
    · exact ended.2
    · exact coversPush.mpr (.inr ⟨by omega,by omega⟩)

theorem lonelySpan (member : range ∈ unicodeSimpleFoldRanges) (inside : span ∈ range.spans) (long : span.1+1 < span.2) :
    (singletonFree span.1 = false → nowhereElse range span.2 = true) ∧ (singletonFree span.2 = false → nowhereElse range span.1 = true) := by
  have checked := List.all_eq_true.mp (List.all_eq_true.mp tables.endsLonely range member) span inside
  simp only [lonely,Bool.or_eq_true,Bool.and_eq_true,Nat.ble_eq] at checked
  obtain ⟨first,last⟩ := checked.resolve_left (Nat.not_le.mpr long)
  refine ⟨fun shared => first.resolve_left ?_,fun shared => last.resolve_left ?_⟩
  · rw [shared]
    exact Bool.false_ne_true
  · rw [shared]
    exact Bool.false_ne_true

theorem elsewhere (only : nowhereElse range value = true) :
    singletonFree value = true ∧ ∀ other ∈ unicodeSimpleFoldRanges, other ≠ range → ∀ span ∈ other.spans, ¬Within span value := by
  rw [nowhereElse,Bool.and_eq_true] at only
  refine ⟨only.1,fun other member differ span inside within => ?_⟩
  have checked := List.all_eq_true.mp only.2 other member
  rw [Bool.or_eq_true,beq_iff_eq] at checked
  have out := List.all_eq_true.mp (checked.resolve_left differ) span inside
  rw [containedIff.mpr within] at out
  exact Bool.noConfusion out

theorem endPoints (sound : range.Sound) (inside : span ∈ range.spans) : span.1 ∈ range.points ∧ span.2 ∈ range.points := by
  have first : range.start ∈ range.sources := (sourceIff sound).mpr (hitsIff.mpr ⟨Nat.le_refl _,sound.upright,by simp⟩)
  have last : range.stop ∈ range.sources := (sourceIff sound).mpr (hitsIff.mpr ⟨sound.upright,Nat.le_refl _,sound.whole⟩)
  have point : ∀ source ∈ range.sources, source ∈ range.points ∧ range.target source ∈ range.points := fun source among =>
    ⟨List.mem_flatMap.mpr ⟨source,among,List.mem_cons_self⟩,List.mem_flatMap.mpr ⟨source,among,List.mem_cons_of_mem _ List.mem_cons_self⟩⟩
  rcases spanCases inside with rfl | rfl
  · exact ⟨(point _ first).1,(point _ last).1⟩
  · exact ⟨(point _ first).2,(point _ last).2⟩

theorem rangesDistinct : unicodeSimpleFoldRanges.Nodup := by
  refine tables.sourcesApart.imp_of_mem fun {a b} member _ apart same => ?_
  subst same
  have sound := soundRange member
  have hits : a.hits a.start = true := hitsIff.mpr ⟨Nat.le_refl _,sound.upright,by simp⟩
  have missed := apartHits apart hits
  rw [hits] at missed
  exact Bool.noConfusion missed

theorem passPairs (member : range ∈ unicodeSimpleFoldRanges) (inside : span ∈ range.spans) {near far} (ends : near = span.1 ∧ far = span.2 ∨ near = span.2 ∧ far = span.1)
    (only : nowhereElse range near = true) (covers : Covers (pass rangeRules work).result near) : Covers (pass rangeRules work).result far := by
  obtain ⟨before,after,parts⟩ := List.append_of_mem member
  have split : pass rangeRules work = pass (after.map FoldRange.rule) (SpanClosure.apply (pass (before.map FoldRange.rule) work) range.rule) := by
    unfold rangeRules
    rw [parts,List.map_append,passAppend]
    rfl
  rw [split] at covers ⊢
  have point : near ∈ range.points := by
    obtain ⟨first,last⟩ := endPoints (soundRange member) inside
    rcases ends with ⟨rfl,-⟩ | ⟨rfl,-⟩
    · exact first
    · exact last
  have here : ∀ w, Covers (SpanClosure.apply w range.rule).result near → Covers (SpanClosure.apply w range.rule).result far := by
    intro w known
    have met : Met w.result range.rule := by
      by_contra unmet
      rw [applyUnmet unmet] at known
      exact unmet ⟨near,point,known⟩
    have ended := applyEnds foldRulesOrdered (rangeRuleMember member) met inside
    rcases ends with ⟨-,rfl⟩ | ⟨-,rfl⟩
    · exact ended.2
    · exact ended.1
  have keeps : Preserved (after.map FoldRange.rule) fun spans => Covers spans near → Covers spans far := by
    intro spans known rule among met span' inside' open_ push
    obtain ⟨other,later,rfl⟩ := List.mem_map.mp among
    have member' : other ∈ unicodeSimpleFoldRanges := parts ▸ List.mem_append_right _ (List.mem_cons_of_mem _ later)
    have differ : other ≠ range := by
      have distinct := rangesDistinct
      rw [parts] at distinct
      rintro rfl
      exact (List.nodup_cons.mp (List.nodup_append.mp distinct).2.1).1 later
    exact (known ((coversPush.mp push).resolve_right ((elsewhere only).2 other member' differ span' inside'))).grow _
  exact passKeeps keeps (here _) covers

theorem pairedPass (work) : Paired (pass rangeRules work).result := by
  intro range member span inside long
  obtain ⟨first,last⟩ := lonelySpan member inside long
  exact ⟨fun shared => passPairs member inside (.inr ⟨rfl,rfl⟩) (first shared),fun shared => passPairs member inside (.inl ⟨rfl,rfl⟩) (last shared)⟩

theorem singletonShared {entry} (member : entry ∈ unicodeSimpleFoldSingletons) : singletonFree entry.1 = false ∧ singletonFree entry.2 = false := by
  have shared : ∀ point, (point,point+1) ∈ [(entry.1,entry.1+1),(entry.2,entry.2+1)] → singletonFree point = false := by
    intro point among
    have inside : (point,point+1) ∈ unicodeSimpleFoldSingletons.flatMap fun entry => [(entry.1,entry.1+1),(entry.2,entry.2+1)] :=
      List.mem_flatMap.mpr ⟨entry,member,among⟩
    rw [singletonFree,singletonMarks,marked inside (Nat.le_refl _) (Nat.lt_succ_self _)]
    rfl
  exact ⟨shared _ List.mem_cons_self,shared _ (List.mem_cons_of_mem _ List.mem_cons_self)⟩

theorem singletonPush {rule} (member : rule ∈ singletonRules) (inside : span ∈ rule.spans) : ∃ value, span = (value,value) ∧ singletonFree value = false := by
  obtain ⟨entry,among,rfl⟩ := List.mem_map.mp member
  rcases singletonSpanCases inside with rfl | rfl
  · exact ⟨entry.1,rfl,(singletonShared among).1⟩
  · exact ⟨entry.2,rfl,(singletonShared among).2⟩

theorem coversPushOne {new} : Covers (spans ++ [(new,new)]) value ↔ Covers spans value ∨ value = new := by
  rw [coversPush]
  exact or_congr_right ⟨fun within => Nat.le_antisymm within.2 within.1,fun same => same ▸ ⟨Nat.le_refl _,Nat.le_refl _⟩⟩

theorem pairedPush : Preserved singletonRules Paired := by
  intro spans paired rule member met span' inside' open_ range among span inside long
  obtain ⟨new,rfl,shared⟩ := singletonPush member inside'
  obtain ⟨first,last⟩ := lonelySpan among inside long
  obtain ⟨low,high⟩ := paired range among span inside long
  refine ⟨fun mine covers => ?_,fun mine covers => ?_⟩
  · rcases coversPushOne.mp covers with known | rfl
    · exact (low mine known).grow _
    · rw [(elsewhere (first mine)).1] at shared
      exact Bool.noConfusion shared
  · rcases coversPushOne.mp covers with known | rfl
    · exact (high mine known).grow _
    · rw [(elsewhere (last mine)).1] at shared
      exact Bool.noConfusion shared

theorem filledPushOne (ranges) : Preserved singletonRules fun spans => Filled ranges spans ∧ Paired spans := by
  intro spans both rule member met span' inside' open_
  refine ⟨?_,pairedPush spans both.2 rule member met span' inside' open_⟩
  intro range among span inside ended
  obtain ⟨new,rfl,shared⟩ := singletonPush member inside'
  by_cases known : Ended spans span
  · exact (both.1 range among span inside known).imp_right fun all value within => (all value within).grow _
  · refine .inr fun value within => ?_
    by_cases long : span.1+1 < span.2
    · obtain ⟨low,high⟩ := both.2 range among span inside long
      refine absurd ?_ known
      rcases coversPushOne.mp ended.1 with first | rfl
      · rcases coversPushOne.mp ended.2 with last | rfl
        · exact ⟨first,last⟩
        · exact ⟨first,high shared first⟩
      · rcases coversPushOne.mp ended.2 with last | same
        · exact ⟨low shared last,last⟩
        · omega
    · rcases withinEnds within with rfl | rfl | inner
      · exact ended.1
      · exact ended.2
      · omega

theorem filledRound (filled : Filled ranges spans) : Filled ranges (round foldRules spans).result := by
  unfold SpanClosure.round foldRules
  rw [passAppend]
  exact (passKeeps (filledPushOne ranges) ⟨passKeeps (filledPush ranges) filled,pairedPass _⟩).1

theorem imageCases (value) : singletonImage value = value ∨ (value,singletonImage value) ∈ unicodeSimpleFoldSingletons := by
  unfold singletonImage
  cases found : singletonTarget value with
  | none => exact .inl rfl
  | some target => exact .inr (singletonTargetMember found)

theorem imageEntry {entry} (member : entry ∈ unicodeSimpleFoldSingletons) : singletonImage entry.1 = entry.2 ∧ singletonImage entry.2 = entry.2 := by
  unfold singletonImage
  rw [singletonSource member,singletonFixed member]
  exact ⟨rfl,rfl⟩

theorem linkedSpanned (spanned : Spanned ranges value) : Linked ranges value := ⟨value,spanned,rfl⟩

theorem singletonMet {entry} (met : Met spans (singletonRule entry)) : Covers spans entry.1 ∨ Covers spans entry.2 := by
  obtain ⟨point,among,covers⟩ := met
  rcases List.mem_cons.mp among with rfl | among
  · exact .inl covers
  · rw [List.mem_singleton.mp among] at covers
    exact .inr covers

theorem withinPreserved (foldable : Foldable ranges) : Preserved foldRules (FoldAlike ranges) := by
  intro spans both rule member met span inside open_
  refine ⟨fun value covers => (both.1 value covers).grow _,fun value covers => ?_⟩
  rcases coversPush.mp covers with known | within
  · exact both.2 value known
  · rcases foldRuleCases member with ⟨range,among,rfl⟩ | ⟨entry,among,rfl⟩
    · obtain ⟨point,isPoint,there⟩ := met
      have fresh : ¬Ended ranges span := fun ended => open_ ⟨both.1 _ ended.1,both.1 _ ended.2⟩
      exact foldable.within value (.inr ⟨range,among,⟨point,isPoint,both.2 point there⟩,span,inside,fresh,within⟩)
    · obtain ⟨fold,fixed⟩ := singletonFold among
      have either : FoldsLike ranges entry.2 := by
        rcases singletonMet met with there | there
        · obtain ⟨source,covered,same⟩ := both.2 _ there
          exact ⟨source,covered,fixed.trans (fold.symm.trans same)⟩
        · exact both.2 _ there
      obtain ⟨source,covered,same⟩ := either
      rcases singletonSpanCases inside with rfl | rfl
      · obtain rfl : value = entry.1 := Nat.le_antisymm within.2 within.1
        exact ⟨source,covered,fold.trans (fixed.symm.trans same)⟩
      · obtain rfl : value = entry.2 := Nat.le_antisymm within.2 within.1
        exact ⟨source,covered,same⟩

theorem linkedPreserved (ranges) : Preserved foldRules (Sourced ranges) := by
  intro spans both rule member met span inside open_
  refine ⟨fun value covers => (both.1 value covers).grow _,fun alike value covers => ?_⟩
  have linked := both.2 fun value covers => alike value (covers.grow _)
  rcases coversPush.mp covers with known | within
  · exact linked value known
  · rcases foldRuleCases member with ⟨range,among,rfl⟩ | ⟨entry,among,rfl⟩
    · obtain ⟨point,isPoint,there⟩ := met
      have fresh : ¬Ended ranges span := fun ended => open_ ⟨both.1 _ ended.1,both.1 _ ended.2⟩
      exact linkedSpanned (.inr ⟨range,among,⟨point,isPoint,alike point (there.grow _)⟩,span,inside,fresh,within⟩)
    · obtain ⟨first,last⟩ := imageEntry among
      have image : singletonImage value = entry.2 := by
        rcases singletonSpanCases inside with rfl | rfl
        · rw [show value = entry.1 from Nat.le_antisymm within.2 within.1,first]
        · rw [show value = entry.2 from Nat.le_antisymm within.2 within.1,last]
      rcases singletonMet met with there | there
      · obtain ⟨near,spanned,same⟩ := linked _ there
        exact ⟨near,spanned,image.trans (first.symm.trans same)⟩
      · obtain ⟨near,spanned,same⟩ := linked _ there
        exact ⟨near,spanned,image.trans (last.symm.trans same)⟩

section
variable {closed : List Span}

theorem closedEntry (still : Still foldRules closed) {entry} (member : entry ∈ unicodeSimpleFoldSingletons) (either : Covers closed entry.1 ∨ Covers closed entry.2) :
    Covers closed entry.1 ∧ Covers closed entry.2 := by
  have met : Met closed (singletonRule entry) := by
    rcases either with there | there
    · exact ⟨entry.1,List.mem_cons_self,there⟩
    · exact ⟨entry.2,List.mem_cons_of_mem _ List.mem_cons_self,there⟩
  have ends := still _ (singletonRuleMember member) met
  exact ⟨(ends (entry.1,entry.1) List.mem_cons_self).1,(ends (entry.2,entry.2) (List.mem_cons_of_mem _ List.mem_cons_self)).1⟩

variable (grown : ∀ value, Covers ranges value → Covers closed value) (still : Still foldRules closed)
include grown still

theorem meetsClosed (member : range ∈ unicodeSimpleFoldRanges) (meets : MeetsFolds ranges range) : Met closed range.rule := by
  obtain ⟨point,isPoint,source,covers,same⟩ := meets
  obtain ⟨first,among,either⟩ := List.mem_flatMap.mp isPoint
  have hits := (sourceIff (soundRange member)).mp among
  have target : unicodeSimpleFold source = range.target first := by
    rw [← same]
    rcases List.mem_cons.mp either with rfl | later
    · exact rangeFold member hits
    · rw [List.mem_singleton.mp later]
      exact targetFold member hits
  have isTarget : range.target first ∈ range.points := List.mem_flatMap.mpr ⟨first,among,List.mem_cons_of_mem _ List.mem_cons_self⟩
  rcases foldCases source with ⟨other,member',hits'⟩ | single | fixed
  · rw [rangeFold member' hits'] at target
    obtain rfl := sameTarget member' member hits' hits target
    exact ⟨source,List.mem_flatMap.mpr ⟨source,(sourceIff (soundRange member')).mpr hits',List.mem_cons_self⟩,grown source covers⟩
  · rw [target] at single
    exact ⟨_,isTarget,(closedEntry still single (.inl (grown source covers))).2⟩
  · rw [target] at fixed
    exact ⟨_,isTarget,fixed ▸ grown source covers⟩

theorem spannedClosed (filled : Filled ranges closed) (spanned : Spanned ranges value) : Covers closed value := by
  rcases spanned with covers | ⟨range,member,meets,span,inside,fresh,within⟩
  · exact grown value covers
  · have ended := still _ (rangeRuleMember member) (meetsClosed grown still member meets) span inside
    exact (filled range member span inside ended).resolve_left fresh value within

theorem linkedClosed (filled : Filled ranges closed) (linked : Linked ranges value) : Covers closed value := by
  obtain ⟨near,spanned,image⟩ := linked
  have there := spannedClosed grown still filled spanned
  have common : Covers closed (singletonImage near) := by
    rcases imageCases near with fixed | entry
    · rw [fixed]
      exact there
    · exact (closedEntry still entry (.inl there)).2
  rw [← image] at common
  rcases imageCases value with fixed | entry
  · rw [fixed] at common
    exact common
  · exact (closedEntry still entry (.inr common)).1

end

theorem filledStart (ranges) : Filled ranges ranges := by
  intro range member span inside ended
  exact Or.inl ended

theorem closesExactly {closed} (closes : Closes foldRules ranges closed) :
    (∀ value, Covers closed value ↔ FoldsLike ranges value) ↔ Foldable ranges := by
  have still := closes.still
  have filled : Filled ranges closed := closes.keeps (fun spans => @filledRound ranges spans) (filledStart ranges)
  have sourced : Sourced ranges closed :=
    closes.preserves (linkedPreserved ranges) ⟨fun _ covers => covers,fun _ _ covers => linkedSpanned (.inl covers)⟩
  have grown := sourced.1
  constructor
  · intro exact_
    exact ⟨fun value spanned => (exact_ value).mp (spannedClosed grown still filled spanned),
      fun value alike => sourced.2 (fun value covers => (exact_ value).mp covers) value ((exact_ value).mpr alike)⟩
  · intro foldable value
    have alike : FoldAlike ranges closed :=
      closes.preserves (withinPreserved foldable) ⟨fun _ covers => covers,fun value covers => ⟨value,covers,rfl⟩⟩
    exact ⟨alike.2 value,fun folds => linkedClosed grown still filled (foldable.reached value folds)⟩

theorem rangeSpanPoints (sound : range.Sound) (inside : span ∈ range.spans) : CodePoints span := by
  obtain ⟨first,last⟩ := targetInts sound
  have upright := sound.upright
  have high := sound.high
  have bounded := sound.bounded
  rcases spanCases inside with rfl | rfl
  · exact ⟨upright,bounded⟩
  · exact ⟨show range.target range.start ≤ range.target range.stop by omega,show range.target range.stop ≤ 0x10ffff by omega⟩

theorem pointsPreserved : Preserved foldRules fun spans => ∀ span ∈ spans, CodePoints span := by
  intro spans points rule member met span inside open_
  refine List.forall_mem_append.mpr ⟨points,List.forall_mem_singleton.mpr ?_⟩
  rcases foldRuleCases member with ⟨range,among,rfl⟩ | ⟨entry,among,rfl⟩
  · exact rangeSpanPoints (soundRange among) inside
  · have bounded := List.all_eq_true.mp tables.singletonsBounded entry among
    rw [Bool.and_eq_true,Nat.ble_eq,Nat.ble_eq] at bounded
    rcases singletonSpanCases inside with rfl | rfl
    · exact ⟨Nat.le_refl _,bounded.1⟩
    · exact ⟨Nat.le_refl _,bounded.2⟩

end

-- The closing ends with these ranges, however much fuel is left.
def Gives (ranges closed : List Span) : Prop := ∃ fuel, ∀ more, fuel ≤ more → unicodeSimpleFoldClosure more ranges = some closed

def FoldsExactly (ranges : List Span) : Prop :=
  ∃ closed, Gives ranges closed ∧ Separated closed ∧ ∀ value, Covers closed value ↔ FoldsLike ranges value

theorem closureGives {ranges} (points : ∀ span ∈ ranges, CodePoints span) :
    ∃ closed, Gives ranges closed ∧ Separated closed ∧ ((∀ value, Covers closed value ↔ FoldsLike ranges value) ↔ Foldable ranges) := by
  obtain ⟨closed,closes,enough⟩ := closeEnds foldRulesOrdered ranges
  obtain ⟨covers,separated⟩ := mergeSpec closed (closes.preserves pointsPreserved points)
  refine ⟨merge closed,⟨pending foldRules ranges+1,fun more fuel => ?_⟩,separated,?_⟩
  · rw [unicodeSimpleFoldClosure,closeLoopRules,enough more fuel]
    rfl
  · simp only [covers]
    exact closesExactly closes

theorem Gives.unique {ranges closed closed'} (gives : Gives ranges closed) (gives' : Gives ranges closed') : closed = closed' := by
  obtain ⟨fuel,ends⟩ := gives
  obtain ⟨fuel',ends'⟩ := gives'
  exact Option.some.inj ((ends _ (Nat.le_max_left fuel fuel')).symm.trans (ends' _ (Nat.le_max_right fuel fuel')))

theorem closureExact (ranges : List Span) (points : ∀ span ∈ ranges, CodePoints span) :
    (∃ closed, Gives ranges closed ∧ Separated closed) ∧ (FoldsExactly ranges ↔ Foldable ranges) := by
  obtain ⟨closed,gives,separated,exact_⟩ := closureGives points
  refine ⟨⟨closed,gives,separated⟩,?_,fun foldable => ⟨closed,gives,separated,exact_.mpr foldable⟩⟩
  rintro ⟨other,gives',-,same⟩
  obtain rfl := gives.unique gives'
  exact exact_.mp same

theorem letterCloses : (∃ closed, Gives [(0x41,0x41)] closed ∧ Separated closed) ∧ (FoldsExactly [(0x41,0x41)] ↔ Foldable [(0x41,0x41)]) :=
  closureExact [(0x41,0x41)] (List.forall_mem_singleton.mpr ⟨Nat.le_refl _,by decide⟩)

theorem neighbourAdded : ¬FoldsExactly [(0x41,0x41)] := by
  rintro ⟨closed,gives,-,exact_⟩
  obtain ⟨other,gives',-,same⟩ := @closureGives [(0x41,0x41)] (List.forall_mem_singleton.mpr ⟨Nat.le_refl _,by decide⟩)
  obtain rfl := gives.unique gives'
  have letter : FoldsLike [(0x41,0x41)] 0x41 := ⟨0x41,⟨_,List.mem_singleton_self _,Nat.le_refl _,Nat.le_refl _⟩,rfl⟩
  have open_ : ¬Ended [(0x41,0x41)] (0x41,0x5a) := by
    rintro ⟨-,span,only,within⟩
    rw [List.mem_singleton.mp only] at within
    exact absurd within.2 (by decide)
  obtain ⟨member,⟨span,only,within⟩,alike⟩ := (same.mp exact_).within 0x42
    (.inr ⟨⟨0x41,0x5a,1,32⟩,List.mem_cons_self,⟨0x41,List.mem_cons_self,letter⟩,(0x41,0x5a),List.mem_cons_self,open_,by decide,by decide⟩)
  rw [List.mem_singleton.mp only] at within
  obtain rfl : member = 0x41 := Nat.le_antisymm within.2 within.1
  have differ : unicodeSimpleFold 0x42 ≠ unicodeSimpleFold 0x41 := by decide
  exact differ alike

end Bamts.Regexp
