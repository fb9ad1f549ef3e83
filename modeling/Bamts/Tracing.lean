import Mathlib.Data.List.Basic
import Mathlib.Data.List.Nodup

/-! Tracing a finite graph with a worklist, where some nodes are holders of pairs: a pair
passes its value on once its holder and its key are both reached. -/
set_option linter.all false
namespace Bamts.Tracing

structure Graph where
  size : Nat
  occupied : Nat → Bool
  targets : Nat → List Nat
  holder : Nat → Bool
  pairs : Nat → List (Option Nat × Option Nat)
  held : ∀ h, holder h = false → pairs h = []

def Graph.live (g : Graph) (i : Nat) : Bool := decide (i < g.size) && g.occupied i

inductive Reach (g : Graph) (roots : List Nat) : Nat → Prop where
  | root {j : Nat} (member : j ∈ roots) (live : g.live j = true) : Reach g roots j
  | edge {i j : Nat} (source : Reach g roots i) (target : j ∈ g.targets i) (live : g.live j = true) : Reach g roots j
  | pair {h k v : Nat} (holder : Reach g roots h) (key : Reach g roots k) (entry : (some k,some v) ∈ g.pairs h)
      (live : g.live v = true) : Reach g roots v

structure State where
  marks : List Bool
  work : List Nat
  holders : List Nat

variable {g : Graph} {roots : List Nat}

def State.marked (s : State) (i : Nat) : Bool := s.marks.getD i false

def mark (g : Graph) (s : State) (i : Nat) : State :=
  if g.size ≤ i ∨ s.marked i ∨ g.occupied i = false then s
  else { s with marks := s.marks.set i true,work := i :: s.work }

def visit (g : Graph) (s : State) (i : Nat) : State :=
  let s := (g.targets i).foldl (mark g) s
  if g.holder i then { s with holders := s.holders ++ [i] } else s

def drain (g : Graph) : Nat → State → State
  | 0, s => s
  | fuel+1, s =>
    match s.work with
    | [] => s
    | i :: rest => drain g fuel (visit g { s with work := rest } i)

def feed (g : Graph) (s : State) : Option Nat × Option Nat → State
  | (some k,some v) => if s.marked k then mark g s v else s
  | _ => s

def pass (g : Graph) (s : State) : State := s.holders.foldl (fun s h => (g.pairs h).foldl (feed g) s) s

def settle (g : Graph) : Nat → State → State
  | 0, s => s
  | fuel+1, s =>
    let s := pass g s
    if s.work.isEmpty then s else settle g fuel (drain g g.size s)

def start (g : Graph) : State := ⟨List.replicate g.size false,[],[]⟩

def trace (g : Graph) (roots : List Nat) : State :=
  settle g (g.size+1) (drain g g.size (roots.foldl (mark g) (start g)))

def State.left (s : State) : Nat := s.marks.count false + s.work.length

structure Inv (g : Graph) (roots busy : List Nat) (s : State) : Prop where
  length : s.marks.length = g.size
  sound : ∀ i, s.marked i = true → Reach g roots i
  pending : ∀ i ∈ busy ++ s.work, s.marked i = true
  traced : ∀ i, s.marked i = true → i ∉ s.work → i ∉ busy →
    (∀ j ∈ g.targets i, g.live j = true → s.marked j = true) ∧ (g.holder i = true → i ∈ s.holders)
  holders : ∀ h ∈ s.holders, g.holder h = true ∧ s.marked h = true
  distinct : (busy ++ s.work ++ s.holders).Nodup

structure Extends (s t : State) : Prop where
  holders : t.holders = s.holders
  grows : ∀ i, s.marked i = true → t.marked i = true
  left : t.left = s.left
  work : s.work.length ≤ t.work.length
  same : t.work.length = s.work.length → t = s

theorem Extends.refl (s) : Extends s s := ⟨rfl,fun _ h => h,rfl,Nat.le_refl _,fun _ => rfl⟩

theorem Extends.trans {s t u} (first : Extends s t) (second : Extends t u) : Extends s u where
  holders := second.holders.trans first.holders
  grows i h := second.grows i (first.grows i h)
  left := second.left.trans first.left
  work := Nat.le_trans first.work second.work
  same equal := by
    have middle : t.work.length = s.work.length := Nat.le_antisymm (by have := second.work; omega) first.work
    have one := first.same middle
    have two := second.same (by omega)
    rw [two,one]

theorem markedSet {s : State} {i} (inside : i < s.marks.length) (j) :
    ({ s with marks := s.marks.set i true,work := i :: s.work } : State).marked j = true ↔ j = i ∨ s.marked j = true := by
  simp only [State.marked,List.getD_eq_getElem?_getD]
  by_cases same : i = j
  · subst same
    simp [inside]
  · simp [same,Ne.symm same]

theorem markCases (g s i) :
    (mark g s i = s ∧ (g.live i = true → s.marked i = true)) ∨
    (g.live i = true ∧ s.marked i = false ∧ mark g s i = { s with marks := s.marks.set i true,work := i :: s.work }) := by
  by_cases skip : g.size ≤ i ∨ s.marked i ∨ g.occupied i = false
  · refine .inl ⟨if_pos skip,?_⟩
    intro live
    simp only [Graph.live,Bool.and_eq_true,decide_eq_true_eq] at live
    rcases skip with outside | done | empty
    · omega
    · exact done
    · rw [live.2] at empty
      cases empty
  · refine .inr ⟨?_,?_,if_neg skip⟩
    all_goals simp only [not_or,Nat.not_le,Bool.not_eq_true,Bool.not_eq_false] at skip
    · simp [Graph.live,skip]
    · exact skip.2.1

theorem liveInside {i} (live : g.live i = true) : i < g.size := by
  simp only [Graph.live,Bool.and_eq_true,decide_eq_true_eq] at live
  exact live.1

theorem countSet {l : List Bool} {i} (inside : i < l.length) (unset : l.getD i false = false) :
    (l.set i true).count false + 1 = l.count false := by
  induction l generalizing i with
  | nil => simp at inside
  | cons b rest ih =>
    cases i with
    | zero =>
      have : b = false := by simpa using unset
      subst this
      simp
    | succ i =>
      have := ih (i := i) (by simpa using inside) (by simpa using unset)
      simp only [List.set_cons_succ,List.count_cons]
      omega

theorem markExtends {s} (length : s.marks.length = g.size) (i) :
    Extends s (mark g s i) ∧ (mark g s i).marks.length = g.size := by
  rcases markCases g s i with ⟨same,_⟩ | ⟨live,fresh,more⟩
  · rw [same]
    exact ⟨.refl s,length⟩
  · have inside : i < s.marks.length := by rw [length]; exact liveInside live
    have count := countSet inside fresh
    rw [more]
    refine ⟨⟨rfl,?_,?_,by simp,by simp⟩,by simpa using length⟩
    · intro j h
      exact (markedSet inside j).mpr (.inr h)
    · simp only [State.left,List.length_cons]
      omega

theorem markMarks {s} (length : s.marks.length = g.size) {i} (live : g.live i = true) :
    (mark g s i).marked i = true := by
  rcases markCases g s i with ⟨same,done⟩ | ⟨_,_,more⟩
  · rw [same]
    exact done live
  · rw [more]
    exact (markedSet (by rw [length]; exact liveInside live) i).mpr (.inl rfl)

theorem foldExtends {α : Type} {step} (one : ∀ s x, s.marks.length = g.size → Extends s (step s x) ∧ (step s x).marks.length = g.size)
    (xs : List α) {s} (length : s.marks.length = g.size) :
    Extends s (xs.foldl step s) ∧ (xs.foldl step s).marks.length = g.size := by
  induction xs generalizing s with
  | nil => exact ⟨.refl s,length⟩
  | cons x rest ih =>
    obtain ⟨first,kept⟩ := one s x length
    obtain ⟨second,done⟩ := ih kept
    exact ⟨first.trans second,done⟩

theorem foldStays {α : Type} {step} (one : ∀ s x, s.marks.length = g.size → Extends s (step s x) ∧ (step s x).marks.length = g.size)
    {xs : List α} {s} (length : s.marks.length = g.size) (stays : xs.foldl step s = s) :
    ∀ x ∈ xs, step s x = s := by
  induction xs with
  | nil => simp
  | cons x rest ih =>
    obtain ⟨first,kept⟩ := one s x length
    obtain ⟨second,_⟩ := foldExtends one rest kept
    rw [List.foldl_cons] at stays
    have here : step s x = s := by
      apply first.same
      have up := first.work
      have down := second.work
      rw [stays] at down
      omega
    rw [here] at stays
    intro y member
    rcases List.mem_cons.mp member with rfl | later
    · exact here
    · exact ih stays y later

theorem markInv {s busy} (inv : Inv g roots busy s) {i} (reach : g.live i = true → Reach g roots i) : Inv g roots busy (mark g s i) := by
  rcases markCases g s i with ⟨same,_⟩ | ⟨live,fresh,more⟩
  · rw [same]
    exact inv
  have marks := markedSet (s := s) (i := i) (by rw [inv.length]; exact liveInside live)
  have grows : ∀ j, s.marked j = true → _ := fun j h => (marks j).mpr (.inr h)
  have other : ∀ j, s.marked j = true → j ≠ i := by
    intro j h same
    rw [same,fresh] at h
    cases h
  rw [more]
  refine ⟨by simpa using inv.length,?_,?_,?_,?_,?_⟩
  · intro j h
    rcases (marks j).mp h with rfl | old
    · exact reach live
    · exact inv.sound j old
  · intro j member
    rw [List.mem_append,List.mem_cons] at member
    rcases member with inside | rfl | inside
    · exact grows j (inv.pending j (List.mem_append.mpr (.inl inside)))
    · exact (marks j).mpr (.inl rfl)
    · exact grows j (inv.pending j (List.mem_append.mpr (.inr inside)))
  · intro j h out idle
    rcases (marks j).mp h with rfl | old
    · exact absurd List.mem_cons_self out
    · obtain ⟨targets,holder⟩ := inv.traced j old (fun member => out (List.mem_cons_of_mem _ member)) idle
      exact ⟨fun k member live => grows k (targets k member live),holder⟩
  · intro h member
    exact ⟨(inv.holders h member).1,grows h (inv.holders h member).2⟩
  · have new : i ∉ busy ++ s.work ++ s.holders := by
      intro member
      rcases List.mem_append.mp member with inside | inside
      · exact other i (inv.pending i inside) rfl
      · exact other i (inv.holders i inside).2 rfl
    have moved : (busy ++ i :: s.work ++ s.holders).Perm (i :: (busy ++ s.work ++ s.holders)) := by
      simp [List.perm_middle]
    exact moved.nodup_iff.mpr (List.nodup_cons.mpr ⟨new,inv.distinct⟩)

theorem foldMarks {s busy} (inv : Inv g roots busy s) (js : List Nat) (reach : ∀ j ∈ js, g.live j = true → Reach g roots j) :
    Inv g roots busy (js.foldl (mark g) s) ∧ ∀ j ∈ js, g.live j = true → (js.foldl (mark g) s).marked j = true := by
  induction js generalizing s with
  | nil => exact ⟨inv,by simp⟩
  | cons j rest ih =>
    have one := markInv inv (reach j List.mem_cons_self)
    obtain ⟨done,marked⟩ := ih one fun k member => reach k (List.mem_cons_of_mem _ member)
    refine ⟨done,?_⟩
    intro k member live
    rcases List.mem_cons.mp member with rfl | later
    · have ext := @foldExtends g _ (mark g) (fun s x length => markExtends length x) rest _ one.length
      exact ext.1.grows k (markMarks inv.length live)
    · exact marked k later live

theorem visitInv {s i rest} (inv : Inv g roots [] s) (work : s.work = i :: rest) :
    Inv g roots [] (visit g { s with work := rest } i) ∧
    (visit g { s with work := rest } i).left + 1 = s.left ∧
    ∀ j, s.marked j = true → (visit g { s with work := rest } i).marked j = true := by
  have taken : s.marked i = true := inv.pending i (by rw [work]; simp)
  have popped : Inv g roots [i] { s with work := rest } := by
    refine ⟨inv.length,inv.sound,?_,?_,inv.holders,?_⟩
    · intro j member
      exact inv.pending j (by rw [work]; simpa using member)
    · intro j h out idle
      exact inv.traced j h (by rw [work]; simpa using ⟨by simpa using idle,out⟩) (by simp)
    · simpa [work] using inv.distinct
  obtain ⟨traced,marked⟩ := foldMarks popped (g.targets i) fun j member live => .edge (inv.sound i taken) member live
  obtain ⟨ext,_⟩ := @foldExtends g _ (mark g) (fun s x length => markExtends length x) (g.targets i) _
    popped.length
  have left : ((g.targets i).foldl (mark g) { s with work := rest }).left + 1 = s.left := by
    rw [ext.left]
    simp only [State.left,work,List.length_cons]
    omega
  have grows : ∀ j, s.marked j = true → _ := ext.grows
  unfold visit
  generalize (g.targets i).foldl (mark g) { s with work := rest } = t at traced marked left grows
  have alone : i ∉ t.work ∧ i ∉ t.holders := by
    have := traced.distinct
    simpa [not_or] using (List.nodup_cons.mp this).1
  have others : (t.work ++ t.holders).Nodup := (List.nodup_cons.mp traced.distinct).2
  split
  · rename_i holds
    refine ⟨⟨traced.length,traced.sound,?_,?_,?_,?_⟩,left,grows⟩
    · intro j member
      exact traced.pending j (List.mem_cons_of_mem _ member)
    · intro j h out _
      by_cases here : j = i
      · subst here
        exact ⟨marked,fun _ => by simp⟩
      · obtain ⟨targets,holder⟩ := traced.traced j h out (by simpa using here)
        exact ⟨targets,fun holds => List.mem_append.mpr (.inl (holder holds))⟩
    · intro h member
      rcases List.mem_append.mp member with old | new
      · exact traced.holders h old
      · rcases List.mem_singleton.mp new with rfl
        exact ⟨holds,traced.pending h (by simp)⟩
    · have moved : (t.work ++ (t.holders ++ [i])).Perm (i :: (t.work ++ t.holders)) := by
        rw [← List.append_assoc]
        exact List.perm_append_singleton i _
      exact moved.nodup_iff.mpr (by simpa using ⟨by simpa using alone,others⟩)
  · rename_i plain
    refine ⟨⟨traced.length,traced.sound,?_,?_,traced.holders,others⟩,left,grows⟩
    · intro j member
      exact traced.pending j (List.mem_cons_of_mem _ member)
    · intro j h out _
      by_cases here : j = i
      · subst here
        exact ⟨marked,fun holds => absurd holds plain⟩
      · exact traced.traced j h out (by simpa using here)

theorem drainInv {fuel s} (inv : Inv g roots [] s) (enough : s.left ≤ fuel) :
    Inv g roots [] (drain g fuel s) ∧ (drain g fuel s).work = [] ∧ (drain g fuel s).left ≤ s.left ∧
    (s.work ≠ [] → (drain g fuel s).left < s.left) ∧
    ∀ i, s.marked i = true → (drain g fuel s).marked i = true := by
  induction fuel generalizing s with
  | zero =>
    have none : s.work = [] := List.length_eq_zero_iff.mp (by simp only [State.left] at enough; omega)
    exact ⟨inv,none,Nat.le_refl _,fun some_ => absurd none some_,fun _ h => h⟩
  | succ fuel ih =>
    rw [drain]
    split
    · rename_i none
      exact ⟨inv,none,Nat.le_refl _,fun some_ => absurd none some_,fun _ h => h⟩
    · rename_i i rest work
      obtain ⟨visited,less,first⟩ := visitInv inv work
      obtain ⟨done,none,bound,_,second⟩ := ih visited (by omega)
      exact ⟨done,none,by omega,fun _ => by omega,fun j h => second j (first j h)⟩

theorem feedExtends (s pair) (length : s.marks.length = g.size) :
    Extends s (feed g s pair) ∧ (feed g s pair).marks.length = g.size := by
  obtain ⟨key,value⟩ := pair
  cases key with
  | none => exact ⟨.refl s,length⟩
  | some k =>
    cases value with
    | none => exact ⟨.refl s,length⟩
    | some v =>
      simp only [feed]
      split
      · exact markExtends length v
      · exact ⟨.refl s,length⟩

theorem pairsExtends (s h) (length : s.marks.length = g.size) :
    Extends s ((g.pairs h).foldl (feed g) s) ∧ ((g.pairs h).foldl (feed g) s).marks.length = g.size :=
  foldExtends feedExtends (g.pairs h) length

theorem pairsInv {s} (inv : Inv g roots [] s) {h} (reach : Reach g roots h)
    (entries : List (Option Nat × Option Nat)) (inside : ∀ e ∈ entries, e ∈ g.pairs h) :
    Inv g roots [] (entries.foldl (feed g) s) := by
  induction entries generalizing s with
  | nil => exact inv
  | cons entry rest ih =>
    refine ih ?_ fun e member => inside e (List.mem_cons_of_mem _ member)
    obtain ⟨key,value⟩ := entry
    cases key with
    | none => exact inv
    | some k =>
      cases value with
      | none => exact inv
      | some v =>
        simp only [feed]
        split
        · rename_i marked
          exact markInv inv (.pair reach (inv.sound k marked) (inside _ List.mem_cons_self))
        · exact inv

theorem passInv {s} (inv : Inv g roots [] s) : Inv g roots [] (pass g s) ∧ Extends s (pass g s) := by
  refine ⟨?_,(foldExtends pairsExtends s.holders inv.length).1⟩
  have all : ∀ h ∈ s.holders, Reach g roots h := fun h member => inv.sound h (inv.holders h member).2
  unfold pass
  generalize s.holders = hs at all
  induction hs generalizing s with
  | nil => exact inv
  | cons h rest ih =>
    exact ih (pairsInv inv (all h List.mem_cons_self) _ fun _ member => member)
      fun k member => all k (List.mem_cons_of_mem _ member)

-- The worklist is empty and no pair has anything left to pass on.
structure Settled (g : Graph) (s : State) : Prop where
  idle : s.work = []
  fed : ∀ h ∈ s.holders, ∀ k v, (some k,some v) ∈ g.pairs h → s.marked k = true → g.live v = true → s.marked v = true

theorem passSettled {s} (inv : Inv g roots [] s) (idle : s.work = []) (quiet : (pass g s).work = []) :
    pass g s = s ∧ Settled g s := by
  have same : pass g s = s := (passInv inv).2.same (by rw [quiet,idle])
  refine ⟨same,idle,?_⟩
  intro h member k v entry marked live
  have step := foldStays pairsExtends inv.length same h member
  have fed := foldStays feedExtends inv.length step (some k,some v) entry
  simp only [feed,marked,if_true] at fed
  rw [← fed]
  exact markMarks inv.length live

theorem settleInv {fuel s} (inv : Inv g roots [] s) (idle : s.work = []) (enough : s.left < fuel)
    (bound : s.left ≤ g.size) : Inv g roots [] (settle g fuel s) ∧ Settled g (settle g fuel s) ∧
    ∀ i, s.marked i = true → (settle g fuel s).marked i = true := by
  induction fuel generalizing s with
  | zero => omega
  | succ fuel ih =>
    obtain ⟨passed,ext⟩ := passInv inv
    rw [settle]
    split
    · rename_i empty
      obtain ⟨same,settled⟩ := passSettled inv idle (List.isEmpty_iff.mp empty)
      rw [same]
      exact ⟨inv,settled,fun _ h => h⟩
    · rename_i more
      have left := ext.left
      obtain ⟨drained,none,_,less,grown⟩ := drainInv passed (by omega : (pass g s).left ≤ g.size)
      have less := less (by simpa using more)
      obtain ⟨done,settled,last⟩ := ih drained none (by omega) (by omega)
      exact ⟨done,settled,fun i h => last i (grown i (ext.grows i h))⟩

theorem reachMarked {s} (inv : Inv g roots [] s) (settled : Settled g s)
    (started : ∀ j ∈ roots, g.live j = true → s.marked j = true) {i} (reach : Reach g roots i) :
    s.marked i = true := by
  have idle : ∀ j, j ∉ s.work := by simp [settled.idle]
  induction reach with
  | root member live => exact started _ member live
  | edge _ target live ih => exact (inv.traced _ ih (idle _) (by simp)).1 _ target live
  | @pair h k v _ _ entry live holder key =>
    by_cases holds : g.holder h = true
    · exact settled.fed h ((inv.traced h holder (idle h) (by simp)).2 holds) k v entry key live
    · rw [g.held h (by simpa using holds)] at entry
      cases entry

theorem startInv : Inv g roots [] (start g) ∧ (start g).left = g.size := by
  have none : ∀ i, (start g).marked i = false := by
    intro i
    simp [State.marked,start,List.getD_eq_getElem?_getD,List.getElem?_replicate]
    split <;> rfl
  refine ⟨⟨by simp [start],?_,by simp [start],?_,by simp [start],by simp [start]⟩,by simp [State.left,start]⟩
  · intro i h
    rw [none] at h
    cases h
  · intro i h
    rw [none] at h
    cases h

/-- Tracing marks exactly the reachable nodes and lists exactly the reachable holders, each once. -/
theorem traceExact (g roots) :
    (∀ i, (trace g roots).marked i = true ↔ Reach g roots i) ∧ (trace g roots).marks.length = g.size ∧
    (∀ h, h ∈ (trace g roots).holders ↔ g.holder h = true ∧ Reach g roots h) ∧ (trace g roots).holders.Nodup := by
  obtain ⟨begun,left⟩ := @startInv g roots
  obtain ⟨rooted,marked⟩ := foldMarks begun roots fun j member live => .root member live
  obtain ⟨ext,_⟩ := @foldExtends g _ (mark g) (fun s x length => markExtends length x) roots _ begun.length
  have size : (roots.foldl (mark g) (start g)).left = g.size := ext.left.trans left
  obtain ⟨drained,idle,bound,_,grown⟩ := drainInv rooted (Nat.le_of_eq size)
  obtain ⟨inv,settled,last⟩ := @settleInv g roots (g.size+1) _ drained idle (by omega) (by omega)
  have exact : ∀ i, (trace g roots).marked i = true ↔ Reach g roots i := by
    intro i
    refine ⟨inv.sound i,reachMarked inv settled ?_⟩
    intro j member live
    exact last j (grown j (marked j member live))
  refine ⟨exact,inv.length,?_,?_⟩
  · intro h
    constructor
    · intro member
      exact ⟨(inv.holders h member).1,inv.sound h (inv.holders h member).2⟩
    · intro holds
      exact (inv.traced h ((exact h).mpr holds.2) (by rw [settled.idle]; simp) (by simp)).2 holds.1
  · have := inv.distinct
    rw [settled.idle] at this
    exact this

end Bamts.Tracing
