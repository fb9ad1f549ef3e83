import Bamts.RuntimeStore
import Mathlib.Order.Bounds.Basic

/-! Writing an array's length: both stores, the elements and the index properties, are cut at
one length, the least that keeps every index that must stay. -/
set_option linter.all false
namespace Bamts.Runtime

def Fixed (properties : PropertyMap) (offset : Nat) : Prop :=
  ∃ entry ∈ properties.entries, entry.1.index = some offset ∧ entry.2.configurable = false

def Blocks (parts : ArrayParts) (length : Nat) : Prop := ∃ offset, length ≤ offset ∧ Fixed parts.properties offset

def spared (parts : ArrayParts) (length : Nat) : Set Nat :=
  {effective | length ≤ effective ∧ ∀ offset, Fixed parts.properties offset → offset < effective}

def ElementsTo (before after : ArrayParts) : Prop :=
  ∀ i, after.elements[i]? = if i < after.elements.length then some (before.elements[i]?.getD .hole) else none

structure GrowsTo (before after : ArrayParts) (length : Nat) : Prop where
  more : before.elements.length ≤ length
  exact : after.elements.length = length
  elements : ElementsTo before after
  properties : after.properties = before.properties

structure CutsTo (before after : ArrayParts) (length : Nat) : Prop where
  fewer : length < before.elements.length
  least : IsLeast (spared before length) after.elements.length
  elements : ElementsTo before after
  properties : after.properties.entries = before.properties.entries.filter (belowLength after.elements.length)

structure ShrinksTo (before after : ArrayParts) (length : Nat) : Prop extends CutsTo before after length where
  shorter : after.elements.length ≤ before.elements.length

theorem resizeAt (elements n i) :
    (resizeElements elements n)[i]? = if i < (resizeElements elements n).length then some (elements[i]?.getD .hole) else none := by
  rw [resizeLength,resizeElements]
  split
  · rename_i inside
    by_cases old : i < elements.length
    · rw [List.getElem?_append_left (by rw [List.length_take]; omega),List.getElem?_take_of_lt inside,List.getElem?_eq_getElem old]
      rfl
    · have count : (elements.take n).length = elements.length := by
        rw [List.length_take]
        omega
      rw [List.getElem?_append_right (by omega),count,List.getElem?_replicate,if_pos (by omega),
        List.getElem?_eq_none (by omega : elements.length ≤ i)]
      rfl
  · rename_i outside
    refine List.getElem?_eq_none ?_
    rw [List.length_append,List.length_take,List.length_replicate]
    omega

theorem blockedMember {properties length offset} :
    (offset ∈ properties.entries.filterMap fun entry => if entry.2.configurable then none else entry.1.index.filter (length ≤ ·)) ↔
      length ≤ offset ∧ Fixed properties offset := by
  rw [List.mem_filterMap]
  constructor
  · rintro ⟨entry,member,found⟩
    split at found
    · cases found
    · rename_i fixed
      obtain ⟨index,above⟩ := Option.filter_eq_some_iff.mp found
      exact ⟨by simpa using above,entry,member,index,by simpa using fixed⟩
  · rintro ⟨above,entry,member,index,fixed⟩
    refine ⟨entry,member,?_⟩
    rw [fixed,index]
    simp [above]

theorem blockedNone {properties length} (free : blockedOffset properties length = none) (offset)
    (fixed : Fixed properties offset) : offset < length := by
  by_contra above
  have member := blockedMember.mpr ⟨Nat.le_of_not_lt above,fixed⟩
  rw [List.max?_eq_none_iff.mp free] at member
  cases member

theorem blockedSome {properties length last} (blocked : blockedOffset properties length = some last) :
    length ≤ last ∧ Fixed properties last ∧ ∀ offset, Fixed properties offset → offset ≤ last := by
  obtain ⟨member,greatest⟩ := List.max?_eq_some_iff.mp blocked
  obtain ⟨above,fixed⟩ := blockedMember.mp member
  refine ⟨above,fixed,fun offset here => ?_⟩
  rcases Nat.lt_or_ge offset length with below | high
  · omega
  · exact greatest offset (blockedMember.mpr ⟨high,here⟩)

theorem blockedIff {parts length} : (blockedOffset parts.properties length).isSome = true ↔ Blocks parts length := by
  rcases blocked : blockedOffset parts.properties length with _ | last
  · refine iff_of_false (by simp) ?_
    rintro ⟨offset,above,fixed⟩
    have := blockedNone blocked offset fixed
    omega
  · have found := blockedSome blocked
    exact iff_of_true rfl ⟨last,found.1,found.2.1⟩

theorem effectiveLeast (parts length) :
    IsLeast (spared parts length) ((blockedOffset parts.properties length).elim length (·+1)) := by
  rcases blocked : blockedOffset parts.properties length with _ | last
  · exact ⟨⟨Nat.le_refl _,blockedNone blocked⟩,fun effective member => member.1⟩
  · obtain ⟨above,fixed,greatest⟩ := blockedSome blocked
    exact ⟨⟨Nat.le_succ_of_le above,fun offset here => Nat.lt_succ_of_le (greatest offset here)⟩,
      fun effective member => member.2 last fixed⟩

theorem cutsShorter {before after length} (cuts : CutsTo before after length) :
    after.elements.length ≤ before.elements.length ↔ ∀ offset, Fixed before.properties offset → offset < before.elements.length := by
  constructor
  · intro shorter offset fixed
    exact Nat.lt_of_lt_of_le (cuts.least.1.2 offset fixed) shorter
  · intro inside
    exact cuts.least.2 ⟨Nat.le_of_lt cuts.fewer,inside⟩

/- A request below the elements cuts both stores at the least length that spares every fixed
index; where such an index lies past the elements, that length is above theirs. -/
theorem applyArrayLengthExact (parts : ArrayParts) (length : Nat) (operation : String) :
    (GrowsTo parts (applyArrayLength parts length operation).1 length ∨
      CutsTo parts (applyArrayLength parts length operation).1 length ∧
      ((applyArrayLength parts length operation).1.elements.length ≤ parts.elements.length ↔
        ∀ offset, Fixed parts.properties offset → offset < parts.elements.length)) ∧
    ((∃ fault, (applyArrayLength parts length operation).2 = .error fault) ↔
      length < parts.elements.length ∧ Blocks parts length) := by
  unfold applyArrayLength
  by_cases grows : parts.elements.length ≤ length
  · rw [if_pos grows]
    refine ⟨.inl ⟨grows,resizeLength _ _,resizeAt _ _,rfl⟩,iff_of_false (by simp) ?_⟩
    rintro ⟨fewer,_⟩
    omega
  · rw [if_neg grows]
    have cuts : CutsTo parts ⟨resizeElements parts.elements ((blockedOffset parts.properties length).elim length (·+1)),
        parts.properties.filter (belowLength ((blockedOffset parts.properties length).elim length (·+1)))⟩ length := by
      constructor
      · exact Nat.lt_of_not_le grows
      · rw [resizeLength]
        exact effectiveLeast parts length
      · exact resizeAt _ _
      · rw [resizeLength]
        rfl
    refine ⟨.inr ⟨cuts,cutsShorter cuts⟩,?_⟩
    rw [← blockedIff]
    dsimp only
    split
    · rename_i blocked
      exact iff_of_true ⟨_,rfl⟩ ⟨Nat.lt_of_not_le grows,blocked⟩
    · rename_i free
      refine iff_of_false (by simp) ?_
      rintro ⟨_,blocked⟩
      exact free blocked

-- `pop` shortens the elements only, so a fixed index can be left past them.
def strayIndex : ArrayParts := ⟨[.undefined],⟨[(.named ⟨[53]⟩,.data .undefined false false false)],by decide⟩⟩

theorem strayIndexGrows :
    ¬(GrowsTo strayIndex (applyArrayLength strayIndex 0 "set array length").1 0 ∨
      ShrinksTo strayIndex (applyArrayLength strayIndex 0 "set array length").1 0) := by
  have grown : (applyArrayLength strayIndex 0 "set array length").1.elements.length = 6 := by decide
  rintro (grows | shrinks)
  · have := grows.exact
    omega
  · have := shrinks.shorter
    rw [grown] at this
    exact absurd this (by decide)

end Bamts.Runtime
