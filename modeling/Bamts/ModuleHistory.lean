import Bamts.ModuleSequence

/-! The order of a whole run: what an entry can rely on when it starts, how often it starts, and what stays as it is. -/
set_option linter.all false
namespace Bamts.Evaluation
open Effect Linkage
open Bamts.Runtime (Value ThrowOrigin RuntimeErrorKind)

section
variable {setup : Setup} {s t start : Evaluator} {m : ModuleId} {choice : Choice}

theorem Evaluator.Fresh.board (fresh : start.Fresh) : Board start := by
  have none_ : ∀ (r : Nat) a, start.records[r]? ≠ some a := by
    intro r a found
    rw [fresh.records] at found
    cases found
  refine ⟨fun r _ a _ found => absurd found (none_ r a),fun r a found => absurd found (none_ r a),fun q d settled owns => ?_⟩
  rw [fresh.promises] at settled
  cases settled

theorem Evaluator.Fresh.ordered (fresh : start.Fresh) : Ordered setup start := by
  refine ⟨⟨fresh.board,?_,?_,?_,by rw [fresh.stack]; exact List.isChain_nil⟩,?_⟩
  · intro x d rest n pair member
    rw [fresh.stack] at member
    cases member
  · intro x p n state
    rw [fresh.modules] at state
    cases state
  · intro above f below split
    rw [fresh.stack] at split
    exact absurd split.symm (List.append_ne_nil_of_right_ne_nil _ nofun)
  · intro x d rest n pair below top
    rw [fresh.stack] at top
    cases top

structure Once (s : Evaluator) : Prop where
  idle : ∀ m, s.modules m = .unevaluated → .started m ∉ s.log
  walks : ∀ m, s.Walks m → .started m ∉ s.log
  parks : ∀ m p n, 0 < n → s.modules m = .evaluatingAsync p n → .started m ∉ s.log
  once : ∀ m, s.log.count (.started m) ≤ 1

theorem Starts.before (once : Once s) (starts : Starts choice s m) : .started m ∉ s.log := by
  cases starts with
  | walked failing dependency pair below chosen top silent =>
    exact once.walks m ⟨dependency,[],0,pair,by rw [top]; exact List.mem_cons_self⟩
  | counted failing jobs pair chosen empty silent front last entered => exact once.parks m pair 1 Nat.one_pos last

theorem Starts.busy (counts : s.Counts) (starts : Starts choice s m) : s.modules m ≠ .unevaluated := by
  cases starts with
  | walked failing dependency pair below chosen top silent =>
    have counted : Counted (.walk m dependency [] 0 pair :: below) [] s := top ▸ counts
    rw [(counted.framed _ List.mem_cons_self).1]
    nofun
  | counted failing jobs pair chosen empty silent front last entered =>
    rw [last]
    nofun

theorem Once.turn (once : Once s) (counts : s.Counts) (moves : Moves choice s t) (logged : Logged choice s t) (calm : ∀ m, .aborted m ∉ t.log) : Once t := by
  have others : ∀ m, (.started m ∈ t.log → .started m ∈ s.log) → (t.modules m = .unevaluated → .started m ∉ t.log) ∧ (t.Walks m → .started m ∉ t.log) ∧
      ∀ p n, 0 < n → t.modules m = .evaluatingAsync p n → .started m ∉ t.log := by
    intro m old
    refine ⟨fun state now => ?_,fun walks now => ?_,fun p n positive state now => ?_⟩
    · rcases moves.idle m state with before | aborted
      · exact once.idle m before (old now)
      · exact calm m aborted
    · rcases moves.walks m walks with before | before
      · exact once.walks m before (old now)
      · exact once.idle m before (old now)
    · rcases moves.parks m p n positive state with ⟨q,k,more,before⟩ | before
      · exact once.parks m q k more before (old now)
      · exact once.walks m before (old now)
  rcases logged with ⟨more,grown,none_⟩ | ⟨x,starts,more,grown,none_⟩
  · have old : ∀ m, .started m ∈ t.log → .started m ∈ s.log := by
      intro m member
      rw [grown] at member
      exact (List.mem_append.mp member).resolve_right (none_ m)
    refine ⟨fun m => (others m (old m)).1,fun m => (others m (old m)).2.1,fun m => (others m (old m)).2.2,fun m => ?_⟩
    rw [grown,List.count_append,List.count_eq_zero_of_not_mem (none_ m)]
    exact once.once m
  · have before := starts.before once
    have old : ∀ m, m ≠ x → .started m ∈ t.log → .started m ∈ s.log := by
      intro m other member
      rw [grown] at member
      rcases List.mem_append.mp member with front | last
      · exact (List.mem_append.mp front).resolve_right (none_ m)
      · cases List.mem_singleton.mp last
        exact absurd rfl other
    refine ⟨fun m state => ?_,fun m walks => ?_,fun m p n positive state => ?_,fun m => ?_⟩
    · by_cases same : m = x
      · subst same
        rcases moves.idle m state with idle | aborted
        · exact absurd idle (starts.busy counts)
        · exact absurd aborted (calm m)
      · exact (others m (old m same)).1 state
    · by_cases same : m = x
      · subst same
        exact absurd walks (moves.started m starts).1
      · exact (others m (old m same)).2.1 walks
    · by_cases same : m = x
      · subst same
        have zero := (moves.started m starts).2 p n state
        omega
      · exact (others m (old m same)).2.2 p n positive state
    · rw [grown,List.count_append,List.count_append,List.count_eq_zero_of_not_mem (none_ m),List.count_singleton]
      by_cases same : m = x
      · subst same
        rw [List.count_eq_zero_of_not_mem before]
        split
        · exact Nat.le_refl 1
        · exact Nat.zero_le 1
      · rw [if_neg (by simpa using fun equal : x = m => same equal.symm)]
        exact once.once m

theorem Evaluator.Fresh.once (fresh : start.Fresh) : Once start := by
  have none_ : ∀ m, .started m ∉ start.log := by
    intro m
    rw [fresh.log]
    exact List.not_mem_nil
  exact ⟨fun m _ => none_ m,fun m _ => none_ m,fun m _ _ _ _ => none_ m,fun m => by rw [List.count_eq_zero_of_not_mem (none_ m)]; exact Nat.zero_le 1⟩

end

def reentrant : Program where
  modules := [
    ⟨⟨0⟩,stubCode [[109],[46,47,110]],[⟨⟨1⟩,.local ⟨1⟩,.dynamic⟩],[],[]⟩,
    ⟨⟨0⟩,stubCode [[110],[46,47,109]],[⟨⟨1⟩,.local ⟨0⟩,.static⟩],[],[]⟩]
  entry := ⟨0⟩

theorem reentrantLinked : Linked reentrant := by
  refine ⟨?_,by decide⟩
  intro m member
  rcases List.mem_cons.mp member with rfl | member
  · exact ⟨_,rfl⟩
  · rcases List.mem_singleton.mp member with rfl
    exact ⟨_,rfl⟩

end Bamts.Evaluation
