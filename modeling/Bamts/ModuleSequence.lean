import Bamts.ModuleOrder

/-! What a turn can do to the modules and the frames, and from it the order in which the entries of a run start. -/
set_option linter.all false
namespace Bamts.Evaluation
open Effect Linkage
open Bamts.Runtime (Value ThrowOrigin RuntimeErrorKind)

def Choice.Apart (setup : Setup) (choice : Choice) (s : Evaluator) : Prop := ∀ target, choice = .import_ target →
  s.modules target = .unevaluated → ∀ d, s.modules d = .evaluating → setup.Reaches target d → setup.Reaches d target

def Evaluator.Walks (s : Evaluator) (m : ModuleId) : Prop := ∃ d rest n pair, Frame.walk m d rest n pair ∈ s.stack

structure Moves (choice : Choice) (s t : Evaluator) : Prop where
  log : s.log <+: t.log
  idle : ∀ m, t.modules m = .unevaluated → s.modules m = .unevaluated ∨ .aborted m ∈ t.log
  walks : ∀ m, t.Walks m → s.Walks m ∨ s.modules m = .unevaluated
  parks : ∀ m p n, 0 < n → t.modules m = .evaluatingAsync p n → (∃ q k, 0 < k ∧ s.modules m = .evaluatingAsync q k) ∨ s.Walks m
  kept : ∀ m result, s.modules m = .evaluated result → t.modules m = .evaluated result
  started : ∀ m, Starts choice s m → ¬t.Walks m ∧ ∀ p n, t.modules m = .evaluatingAsync p n → n = 0

structure Turned (setup : Setup) (choice : Choice) (s t : Evaluator) : Prop where
  board : Board t
  moves : Moves choice s t
  order : choice.Apart setup s → Ordered setup s → Ordered setup t

section
variable {setup : Setup} {s t u : Evaluator} {m : ModuleId} {f : Frame} {below : List Frame} {choice : Choice}

theorem Choice.quiet (walks : ∀ failing, choice ≠ .walk failing) (jobs : ∀ failing, choice ≠ .job failing) (x) : ¬Starts choice s x := by
  intro starts
  cases starts with
  | walked failing _ _ _ chosen => exact walks failing chosen
  | counted failing _ _ chosen => exact jobs failing chosen

theorem Turned.still (board : Board s) (never : ∀ x, ¬Starts choice s x) {log} (longer : s.log <+: log) (returning)
    (top : returning = s.returning ∨ ∀ x d rest n pair below, s.stack ≠ .walk x d rest n pair :: below) :
    Turned setup choice s { s with log := log,returning := returning } := by
  have here := notedLocal board ⟨0⟩ returning log longer
  refine ⟨here.board,⟨longer,fun _ => .inl,fun _ => .inl,fun x p n positive state => .inl ⟨p,n,positive,state⟩,fun _ _ h => h,fun x starts => absurd starts (never x)⟩,?_⟩
  intro _ good
  refine ⟨⟨here.board,fun x d rest n pair member => (good.walked x d rest n pair member).advance here.advance,
    fun x p n state positive y depends => here.advance.satisfied (good.parked x p n state positive y depends),good.nested,good.linked⟩,?_⟩
  intro x d rest n pair lower split
  rcases top with same | away
  · subst same
    exact (good.heard x d rest n pair lower split).advance here.advance
  · exact absurd split (away x d rest n pair lower)

theorem Turned.idle (board : Board s) (never : ∀ x, ¬Starts choice s x) : Turned setup choice s s :=
  .still board never (List.prefix_refl _) s.returning (.inl rfl)

theorem Turned.pop (counts : s.Counts) (top : s.stack = f :: below) (held : f.module = m) (here : Local m { s with stack := below } t)
    (plain : (t.modules m).Plain) (heard : f.holds = true → ∀ x, Hears setup t x (some m) t.returning) : Turned setup choice s t := by
  have counted : Counted (f :: below) [] s := top ▸ counts
  have stack : t.stack = below := here.stack
  have kept : ∀ x, t.Walks x → x ≠ m ∧ s.Walks x := by
    intro x walks
    obtain ⟨d,rest,n,pair,member⟩ := walks
    rw [stack] at member
    refine ⟨fun same => ?_,d,rest,n,pair,by rw [top]; exact List.mem_cons_of_mem _ member⟩
    have away := counted.away
    rw [held,← same] at away
    exact away (List.mem_map.mpr ⟨_,member,rfl⟩)
  refine ⟨here.board,⟨here.log,?_,fun x walks => .inl (kept x walks).2,?_,?_,?_⟩,?_⟩
  · intro x state
    by_cases same : x = m
    · subst same
      exact here.idle state
    · exact .inl ((here.others x same).symm.trans state)
  · intro x p n positive state
    by_cases same : x = m
    · subst same
      have := plain.2 p n state
      omega
    · exact .inl ⟨p,n,positive,(here.others x same).symm.trans state⟩
  · intro x result state
    by_cases same : x = m
    · subst same
      exact here.kept result state
    · exact (here.others x same).trans state
  · intro x starts
    cases starts with
    | walked failing d pair lower chosen under silent =>
      rw [top] at under
      cases under
      exact ⟨fun walks => (kept x walks).1 held,fun p n state => plain.2 p n (held ▸ state)⟩
    | counted failing jobs pair chosen empty silent front last entered =>
      rw [top] at empty
      cases empty
  · intro _ good
    refine good.pop top held here plain fun d rest n pair lower x under holds called => ?_
    rw [called]
    exact heard holds x

theorem Turned.begin (frames) {found} (board : Board s) (never : ∀ x, ¬Starts choice s x)
    (idle : s.modules m = .unevaluated) (ok : setup.dependencies m = .ok found) (silent : s.returning = none)
    (known : ∀ x d rest n pair, .walk x d rest n pair ∈ frames → s.Walks x)
    (order : choice.Apart setup s → Ordered setup s → Arranged setup { s with stack := frames } ∧
      (∀ lower, frames.head? = some lower → Calls (.walk m none found 0 none) lower) ∧
      ∀ x, s.modules x = .evaluating → setup.Reaches m x → setup.Reaches x m) :
    Turned setup choice s { s.write m .evaluating with stack := .walk m none found 0 none :: frames } := by
  obtain ⟨moved,_⟩ := writeAdvance (m := m) board .evaluating fun done => nomatch idle.symm.trans done
  have same : ∀ x state, state ≠ .evaluating → (s.write m .evaluating).modules x = state → s.modules x = state := by
    intro x state other now
    by_cases equal : x = m
    · subst equal
      rw [writeSame] at now
      exact absurd now.symm other
    · exact (writeOther s .evaluating equal).symm.trans now
  refine ⟨⟨moved.unique,moved.inside,moved.fulfilled⟩,⟨List.prefix_refl _,fun x state => .inl (same x _ nofun state),?_,
    fun x p k positive state => .inl ⟨p,k,positive,same x _ nofun state⟩,?_,fun x starts => absurd starts (never x)⟩,?_⟩
  · intro x walks
    obtain ⟨d,rest,n,pair,member⟩ := walks
    rcases List.mem_cons.mp member with equal | old
    · cases equal
      exact .inr idle
    · exact .inl (known x d rest n pair old)
  · intro x result state
    have other : x ≠ m := by
      intro equal
      subst equal
      exact nomatch idle.symm.trans state
    exact (writeOther s .evaluating other).trans state
  · intro apart good
    obtain ⟨arranged,calls,back⟩ := order apart good
    refine ⟨arranged.begin idle ok calls back,?_⟩
    intro x d rest n pair lower split
    cases split
    show Hears setup _ m none s.returning
    rw [silent]
    exact rfl

theorem Turned.flat (board : Board t) (log : s.log <+: t.log) (stack : ∀ f ∈ t.stack, f.holds = false) (short : t.stack.length ≤ 1)
    (others : ∀ x, x ≠ m → t.modules x = s.modules x) (idle : t.modules m = .unevaluated → s.modules m = .unevaluated ∨ .aborted m ∈ t.log)
    (parks : ∀ p n, 0 < n → t.modules m = .evaluatingAsync p n → ∃ q k, 0 < k ∧ s.modules m = .evaluatingAsync q k)
    (kept : ∀ result, s.modules m = .evaluated result → t.modules m = .evaluated result)
    (started : ∀ x, Starts choice s x → ∀ p n, t.modules x = .evaluatingAsync p n → n = 0)
    (satisfied : ∀ x y p n, t.modules x = .evaluatingAsync p n → 0 < n → Satisfied setup s x y → Satisfied setup t x y) : Turned setup choice s t := by
  have parked : ∀ x p n, 0 < n → t.modules x = .evaluatingAsync p n → ∃ q k, 0 < k ∧ s.modules x = .evaluatingAsync q k := by
    intro x p n positive state
    by_cases same : x = m
    · subst same
      exact parks p n positive state
    · exact ⟨p,n,positive,(others x same).symm.trans state⟩
  have none_ : ∀ x, ¬t.Walks x := by
    intro x walks
    obtain ⟨d,rest,n,pair,member⟩ := walks
    exact nomatch stack _ member
  refine ⟨board,⟨log,?_,fun x walks => absurd walks (none_ x),fun x p n positive state => .inl (parked x p n positive state),?_,
    fun x starts => ⟨none_ x,started x starts⟩⟩,?_⟩
  · intro x state
    by_cases same : x = m
    · subst same
      exact idle state
    · exact .inl ((others x same).symm.trans state)
  · intro x result state
    by_cases same : x = m
    · subst same
      exact kept result state
    · exact (others x same).trans state
  · intro _ good
    refine ⟨⟨board,fun x d rest n pair member => absurd ⟨d,rest,n,pair,member⟩ (none_ x),?_,?_,?_⟩,?_⟩
    · intro x p n state positive y depends
      obtain ⟨q,k,before,old⟩ := parked x p n positive state
      exact satisfied x y p n state positive (good.parked x q k old before y depends)
    · intro above g below split holds
      have member : g ∈ t.stack := by
        rw [split]
        exact List.mem_append_right _ List.mem_cons_self
      rw [stack g member] at holds
      cases holds
    · cases frames : t.stack with
      | nil => exact List.isChain_nil
      | cons g rest =>
        rw [frames,List.length_cons] at short
        rw [List.eq_nil_of_length_eq_zero (by omega : rest.length = 0)]
        exact List.isChain_singleton g
    · intro x d rest n pair lower split
      exact absurd ⟨d,rest,n,pair,by rw [split]; exact List.mem_cons_self⟩ (none_ x)

variable {d : Option ModuleId} {rest : List ModuleId} {n : Nat} {pair : Option ModulePending}

theorem Walked.heard (walked : Walked setup s m d rest) (advance : Advance s t) (known : ∀ x, d = some x → Satisfied setup t m x) :
    Walked setup t m none rest := by
  refine ⟨fun x depends => ?_,fun x called => walked.static x (called.imp_right nofun)⟩
  rcases walked.called x depends with later | now | before
  · exact .inl later
  · exact .inr (.inr (known x now))
  · exact .inr (.inr (advance.satisfied before))

theorem Pairs.owns {p} (known : Pairs s m p) : Owner s p.promise m := by
  obtain ⟨a,found,owner,promise⟩ := known.made
  exact ⟨p.record,a,found,promise,owner⟩

theorem Arranged.cycle (good : Arranged setup s) (top : s.stack = .walk m d rest n pair :: below) {x} (evaluating : s.modules x = .evaluating)
    (reaches : setup.Reaches m x) : setup.Reaches x m := good.nested [] _ below top rfl x evaluating List.not_mem_nil reaches

theorem Turned.enters {pair'} (counts : s.Counts)
    (top : s.stack = .walk m d rest n pair :: below) (here : Local m { s with stack := below } t) (modules : t.modules = s.modules) :
    Turned setup choice s { t with stack := .entry m pair' .walk :: t.stack,log := t.log ++ [.started m] } := by
  have counted : Counted (.walk m d rest n pair :: below) [] s := top ▸ counts
  have same : ∀ x, t.modules x = s.modules x := fun x => by rw [modules]
  have walks : ∀ x d rest n pair, Frame.walk x d rest n pair ∈ Frame.entry m pair' .walk :: t.stack → .walk x d rest n pair ∈ below := by
    intro x d rest n pair member
    rw [here.stack] at member
    exact (List.mem_cons.mp member).elim nofun fun old => old
  have advance : Advance s { t with stack := .entry m pair' .walk :: t.stack,log := t.log ++ [.started m] } :=
    ⟨here.advance.done,here.advance.owner,here.advance.awaits,here.advance.refused⟩
  have board : Board { t with stack := .entry m pair' .walk :: t.stack,log := t.log ++ [.started m] } :=
    ⟨here.board.unique,here.board.inside,here.board.fulfilled⟩
  refine ⟨board,⟨here.log.trans (List.prefix_append _ _),fun x state => .inl ((same x).symm.trans state),?_,
    fun x p k positive state => .inl ⟨p,k,positive,(same x).symm.trans state⟩,fun x result state => (same x).trans state,?_⟩,?_⟩
  · intro x walks'
    obtain ⟨d',rest',n',pair',member⟩ := walks'
    exact .inl ⟨d',rest',n',pair',by rw [top]; exact List.mem_cons_of_mem _ (walks x d' rest' n' pair' member)⟩
  · intro x starts
    cases starts with
    | walked failing d pair lower chosen under silent =>
      rw [top] at under
      cases under
      refine ⟨fun walks' => ?_,fun p k state => ?_⟩
      · obtain ⟨d',rest',n',pair',member⟩ := walks'
        exact counted.away (List.mem_map.mpr ⟨_,walks m d' rest' n' pair' member,rfl⟩)
      · exact nomatch (counted.framed _ List.mem_cons_self).1.symm.trans ((same m).symm.trans state)
    | counted failing jobs pair chosen empty silent front last entered =>
      rw [top] at empty
      cases empty
  · intro _ good
    have nested : Nested setup s (.walk m d rest n pair :: below) := top ▸ good.nested
    have linked : (.walk m d rest n pair :: below : List Frame).IsChain Calls := top ▸ good.linked
    have stack : t.stack = below := here.stack
    refine ⟨⟨board,?_,?_,?_,?_⟩,?_⟩
    · intro x d' rest' n' pair' member
      exact (good.walked x d' rest' n' pair' (by rw [top]; exact List.mem_cons_of_mem _ (walks x d' rest' n' pair' member))).advance advance
    · intro x p k state positive y depends
      exact advance.satisfied (good.parked x p k ((same x).symm.trans state) positive y depends)
    · show Nested setup _ (_ :: t.stack)
      rw [stack]
      exact nested.rename rfl (fun _ => rfl) fun x now => (same x).symm.trans now
    · show (_ :: t.stack).IsChain Calls
      rw [stack]
      cases below with
      | nil => exact List.isChain_singleton _
      | cons lower rest =>
        obtain ⟨calls,chain⟩ := List.isChain_cons_cons.mp linked
        exact List.isChain_cons_cons.mpr ⟨fun x d₁ rest₁ n₁ pair₁ equal => ⟨rfl,(calls x d₁ rest₁ n₁ pair₁ equal).2⟩,chain⟩
    · intro x d' rest' n' pair' lower split
      cases split

theorem Local.stays (here : Local m s t) (plain : (s.modules m).Plain) : (t.modules m).Plain := by
  rcases here.plain with same | other
  · rw [same]
    exact plain
  · exact other

theorem Satisfied.popped {job jobs} (front : s.jobs = job :: jobs) {x y} (known : Satisfied setup s x y)
    (apart : x = job.parent → job.outcome = .fulfilled) : Satisfied setup { s with jobs := jobs } x y := by
  rcases known with done | cyclic | waits | ⟨value,origin,member⟩
  · exact .inl done
  · exact .inr (.inl cyclic)
  · exact .inr (.inr (.inl waits))
  · rw [front] at member
    rcases List.mem_cons.mp member with rfl | later
    · exact nomatch apart rfl
    · exact .inr (.inr (.inr ⟨value,origin,later⟩))

end

end Bamts.Evaluation
