import Mathlib.Data.Set.Basic

/-! Forward must-analysis over an arbitrary edge relation. A fact table that is
closed under every edge under-approximates each path; a table whose missing
entries are all justified by a path misses nothing. Together they say that the
table is the meet over all paths, also through loops and unreachable nodes. -/
set_option linter.all false
namespace Bamts.ForwardFlow

variable {Node Item : Type*}

structure Graph (Node Item : Type*) where
  entry : Node
  start : Set Item
  edge : Node → Set Item → Node → Prop

inductive Path (g : Graph Node Item) : Node → Set Item → Prop where
  | entry : Path g g.entry g.start
  | step {n m : Node} {held gained : Set Item} (before : Path g n held)
      (along : g.edge n gained m) : Path g m (held ∪ gained)

def Closed (g : Graph Node Item) (facts : Node → Set Item) : Prop :=
  facts g.entry ⊆ g.start ∧ ∀ n gained m, g.edge n gained m → facts m ⊆ facts n ∪ gained

def Justified (g : Graph Node Item) (domain : Set Item) (facts : Node → Set Item) : Prop :=
  ∀ n, ∀ x ∈ domain, x ∉ facts n → ∃ held, Path g n held ∧ x ∉ held

theorem closedSound {g : Graph Node Item} {facts} (closed : Closed g facts) {n held} (path : Path g n held) : facts n ⊆ held := by
  induction path with
  | entry => exact closed.1
  | step before along ih =>
    intro x hx
    rcases closed.2 _ _ _ along hx with old | new
    · exact Or.inl (ih old)
    · exact Or.inr new

theorem missingThrough {g : Graph Node Item} {domain facts} (justified : Justified g domain facts) {n m gained x} (along : g.edge n gained m)
    (known : x ∈ domain) (absent : x ∉ facts n) (unwritten : x ∉ gained) :
    ∃ held, Path g m held ∧ x ∉ held := by
  obtain ⟨held,path,missing⟩ := justified n x known absent
  refine ⟨held ∪ gained,.step path along,?_⟩
  rintro (old | new)
  · exact missing old
  · exact unwritten new

theorem meetOverAllPaths {g : Graph Node Item} {domain facts} (closed : Closed g facts) (justified : Justified g domain facts) (n) {x}
    (known : x ∈ domain) : x ∈ facts n ↔ ∀ held, Path g n held → x ∈ held := by
  constructor
  · intro hx held path
    exact closedSound closed path hx
  · intro all
    by_contra absent
    obtain ⟨held,path,missing⟩ := justified n x known absent
    exact missing (all held path)

end Bamts.ForwardFlow
