import Bamts.StableSort

/-! The sort of typed arrays: runs merged from one buffer into the other, the buffers swapped after each pass. -/
set_option linter.all false
namespace Bamts.TypedSort
open Effect StableSort

variable {α σ ε : Type} {n : Nat}

def usizeMax : Nat := 2^64-1

def saturatingAdd (a b : Nat) : Nat := min (a+b) usizeMax

def saturatingMul (a b : Nat) : Nat := min (a*b) usizeMax

structure Vec (α : Type) where
  items : List α
  short : items.length ≤ usizeMax

structure Buffer (α : Type) (n : Nat) where
  items : List α
  length : items.length = n

namespace Buffer

def get (source : Buffer α n) (i : Nat) (inside : i < n) : α := source.items.get ⟨i,by rw [source.length]; exact inside⟩

def put (target : Buffer α n) (output : Nat) (x : α) : Buffer α n := ⟨target.items.set output x,by rw [List.length_set,target.length]⟩

end Buffer

def copyLoop (source : Buffer α n) (bound : Nat) (fits : bound ≤ n) (left output : Nat) (target : Buffer α n) : Buffer α n :=
  if more : left < bound then copyLoop source bound fits (left+1) (output+1) (target.put output (source.get left (Nat.lt_of_lt_of_le more fits)))
  else target
termination_by bound-left

def mergeLoop (compare : Comparison α σ ε) (source : Buffer α n) (middle end_ : Nat) (fits : middle ≤ n ∧ end_ ≤ n) (left right output : Nat)
    (target : Buffer α n) : EStateM ε σ (Buffer α n) :=
  if more : left < middle ∧ right < end_ then do
    let x := source.get left (Nat.lt_of_lt_of_le more.1 fits.1)
    let y := source.get right (Nat.lt_of_lt_of_le more.2 fits.2)
    let order ← compare x y
    if order ≠ .gt then mergeLoop compare source middle end_ fits (left+1) right (output+1) (target.put output x)
    else mergeLoop compare source middle end_ fits left (right+1) (output+1) (target.put output y)
  else pure (copyLoop source end_ fits.2 right (output+(middle-left)) (copyLoop source middle fits.1 left output target))
termination_by (middle-left)+(end_-right)

def passLoop (compare : Comparison α σ ε) (short : n ≤ usizeMax) (source : Buffer α n) (width : Nat) (positive : 0 < width) (start : Nat)
    (target : Buffer α n) : EStateM ε σ (Buffer α n) :=
  if _ : start < n then do
    let middle := min (saturatingAdd start width) n
    let end_ := min (saturatingAdd middle width) n
    let target ← mergeLoop compare source middle end_ ⟨Nat.min_le_right _ _,Nat.min_le_right _ _⟩ start middle start target
    passLoop compare short source width positive end_ target
  else pure target
termination_by n-start
decreasing_by
  simp only [saturatingAdd] at *
  omega

def sortLoop (compare : Comparison α σ ε) (short : n ≤ usizeMax) (width : Nat) (positive : 0 < width) (source target : Buffer α n) :
    EStateM ε σ (Buffer α n) :=
  if more : width < n then do
    let target ← passLoop compare short source width positive 0 target
    sortLoop compare short (saturatingMul width 2) (by simp only [saturatingMul]; omega) target source
  else pure source
termination_by n-width
decreasing_by
  simp only [saturatingMul] at *
  omega

def stableSort (compare : Comparison α σ ε) (source : Vec α) : EStateM ε σ (Vec α) :=
  if source.items.length < 2 then pure source
  else do
    let out ← sortLoop compare source.short 1 Nat.one_pos ⟨source.items,rfl⟩ ⟨source.items,rfl⟩
    pure ⟨out.items,by rw [out.length]; exact source.short⟩

def place (target : List α) (k : Nat) (out : List α) : List α := target.take k ++ out ++ target.drop (k+out.length)

section Place
variable {target : List α} {k : Nat}

theorem placeNothing (target : List α) (k) : place target k [] = target := by
  rw [place,List.append_nil,List.length_nil,Nat.add_zero,List.take_append_drop]

theorem placeSet (inside : k < target.length) (x out) : place (target.set k x) (k+1) out = place target k (x :: out) := by
  have before : (target.set k x).take (k+1) = target.take k ++ [x] := by
    rw [List.take_add_one,List.take_set_of_le (Nat.le_refl k),List.getElem?_set_self inside]
    rfl
  rw [place,place,before,List.drop_set_of_lt (by omega),List.append_assoc (target.take k),List.singleton_append,List.length_cons]
  congr 2
  omega

theorem placeAfter (inside : k ≤ target.length) (first second) :
    place (place target k first) (k+first.length) second = place target k (first ++ second) := by
  have size : (target.take k ++ first).length = k+first.length := by rw [List.length_append,List.length_take_of_le inside]
  rw [place,place,place,List.take_left' size,← List.append_assoc (target.take k)]
  congr 1
  rw [List.drop_append,List.drop_eq_nil_of_le (by omega),List.nil_append,List.drop_drop,size,List.length_append]
  congr 1
  omega

end Place

def Buffer.slice (source : Buffer α n) (low high : Nat) : List α := (source.items.take high).drop low

namespace Buffer
variable (source : Buffer α n) {low high : Nat}

theorem sliceNothing (none_ : ¬low < high) : source.slice low high = [] := by
  rw [slice,List.drop_of_length_le]
  rw [List.length_take]
  omega

theorem sliceCons (some_ : low < high) (fits) :
    source.slice low high = source.get low (Nat.lt_of_lt_of_le some_ fits) :: source.slice (low+1) high := by
  have inside : low < (source.items.take high).length := by
    rw [List.length_take,source.length]
    omega
  rw [slice,List.drop_eq_getElem_cons inside,List.getElem_take]
  rfl

theorem sliceLength (fits : high ≤ n) : (source.slice low high).length = high-low := by
  rw [slice,List.length_drop,List.length_take,source.length,Nat.min_eq_left fits]

theorem sliceBlock (start width) : source.slice start (min (start+width) n) = (source.items.drop start).take width := by
  rw [slice,List.drop_take,List.take_eq_take_iff,List.length_drop,source.length]
  omega

theorem dropBlock (far) : source.items.drop (min far n) = source.items.drop far := by
  by_cases short : far ≤ n
  · rw [Nat.min_eq_left short]
  · rw [Nat.min_eq_right (Nat.le_of_not_le short),List.drop_of_length_le source.length.le,
      List.drop_of_length_le (source.length.le.trans (Nat.le_of_not_le short))]

theorem sliceNext (start width) :
    source.slice (min (start+width) n) (min (start+2*width) n) = ((source.items.drop start).drop width).take width := by
  rw [List.drop_drop,← source.sliceBlock,show start+width+width = start+2*width by omega]
  by_cases short : start+width ≤ n
  · rw [Nat.min_eq_left short]
  · rw [Nat.min_eq_right (Nat.le_of_not_le short),source.sliceNothing (by omega),source.sliceNothing (by omega)]

end Buffer

section Loops
variable {compare : Comparison α σ ε} {source target : Buffer α n}

theorem copyLoopPlaces {bound left output fits} (room : output+(bound-left) ≤ n) :
    (copyLoop source bound fits left output target).items = place target.items output (source.slice left bound) := by
  induction left, output, target using copyLoop.induct source bound fits with
  | case1 left output target more ih =>
    rw [copyLoop,dif_pos more,ih (by omega),source.sliceCons more fits]
    exact placeSet (by rw [target.length]; omega) _ _
  | case2 left output target rest =>
    rw [copyLoop,dif_neg rest,source.sliceNothing rest,placeNothing]

theorem mergeNothing (compare : Comparison α σ ε) (xs) : merge compare xs [] = pure xs := by
  cases xs with
  | nil => rw [merge]
  | cons x xs => rw [merge]

theorem mergeLoopPlaces {middle end_ left right output fits} (room : output+(middle-left)+(end_-right) ≤ n) :
    (do let out ← mergeLoop compare source middle end_ fits left right output target; pure out.items) =
      (do let out ← merge compare (source.slice left middle) (source.slice right end_); pure (place target.items output out)) := by
  induction left, right, output, target using mergeLoop.induct source middle end_ fits with
  | case1 left right output target more x y first second =>
    rw [mergeLoop,dif_pos more,source.sliceCons more.1 fits.1,source.sliceCons more.2 fits.2,merge]
    simp only [bind_assoc]
    refine bind_congr fun order => ?_
    split
    · rw [first (by omega),source.sliceCons more.2 fits.2,bind_assoc]
      refine bind_congr fun out => ?_
      exact congrArg pure (placeSet (by rw [target.length]; omega) _ _)
    · rw [second (by omega),source.sliceCons more.1 fits.1,bind_assoc]
      refine bind_congr fun out => ?_
      exact congrArg pure (placeSet (by rw [target.length]; omega) _ _)
  | case2 left right output target done =>
    rw [mergeLoop,dif_neg done,pure_bind,copyLoopPlaces (by omega),copyLoopPlaces (by omega)]
    by_cases some_ : left < middle
    · rw [source.sliceNothing (fun more => done ⟨some_,more⟩),placeNothing,mergeNothing,pure_bind]
    · rw [source.sliceNothing some_,placeNothing,merge,pure_bind,Nat.sub_eq_zero_of_le (Nat.not_lt.mp some_),Nat.add_zero]

theorem bindSame {β γ p} {f g : β → EStateM ε σ γ} {s} (same : After p s (fun a t => f a t = g a t) fun _ _ => True) :
    (p >>= f) s = (p >>= g) s := by
  unfold After at same
  cases result : p s with
  | ok a t =>
    rw [result] at same
    rw [doneBind result,doneBind result]
    exact same
  | error e t => rw [failedBind result,failedBind result]

theorem passLoopPlaces {short width positive start} (inside : start ≤ n) (s) :
    (do let out ← passLoop compare short source width positive start target; pure out.items) s =
      (do let out ← mergeRuns compare width positive (source.items.drop start); pure (place target.items start out)) s := by
  induction start, target using passLoop.induct short width positive generalizing s with
  | case1 start target more middle end_ ih =>
    have middleIs : middle = min (start+width) n := by
      simp only [middle,saturatingAdd]
      omega
    have endIs : end_ = min (start+2*width) n := by
      simp only [end_,saturatingAdd,middleIs]
      omega
    have left : source.slice start middle = (source.items.drop start).take width := by
      rw [middleIs,source.sliceBlock]
    have right : source.slice middle end_ = ((source.items.drop start).drop width).take width := by
      rw [middleIs,endIs,source.sliceNext]
    have later : source.items.drop end_ = (source.items.drop start).drop (2*width) := by
      rw [endIs,source.dropBlock,List.drop_drop]
    have startMiddle : start ≤ middle := middleIs.trans_ge (Nat.le_min.mpr ⟨Nat.le_add_right _ _,inside⟩)
    have middleEnd : middle ≤ end_ := by
      rw [middleIs,endIs]
      exact Nat.le_min.mpr ⟨(Nat.min_le_left _ _).trans (by omega),Nat.min_le_right _ _⟩
    have some_ : ¬source.items.drop start = [] := by
      rw [List.drop_eq_nil_iff,source.length]
      exact Nat.not_le.mpr more
    rw [passLoop,dif_pos more,mergeRuns,if_neg some_,← left,← right,← later]
    simp only [bind_assoc,pure_bind]
    calc (mergeLoop compare source middle end_ _ start middle start target >>= fun next =>
          passLoop compare short source width positive end_ next >>= fun out => pure out.items) s
        = (mergeLoop compare source middle end_ ⟨Nat.min_le_right _ _,Nat.min_le_right _ _⟩ start middle start target >>= fun next => do
            let out ← mergeRuns compare width positive (source.items.drop end_)
            pure (place next.items end_ out)) s := bindSame ((afterAlways _ s).mono (fun next t _ => ih next (by omega) t) fun _ _ _ => True.intro)
      _ = ((do let out ← mergeLoop compare source middle end_ ⟨Nat.min_le_right _ _,Nat.min_le_right _ _⟩ start middle start target; pure out.items) >>= fun items => do
            let out ← mergeRuns compare width positive (source.items.drop end_)
            pure (place items end_ out)) s := by rw [bind_assoc]; simp only [pure_bind]
      _ = (merge compare (source.slice start middle) (source.slice middle end_) >>= fun run => do
            let out ← mergeRuns compare width positive (source.items.drop end_)
            pure (place (place target.items start run) end_ out)) s := by
          rw [mergeLoopPlaces (by omega),bind_assoc]
          simp only [pure_bind]
      _ = (merge compare (source.slice start middle) (source.slice middle end_) >>= fun run => do
            let rest ← mergeRuns compare width positive (source.items.drop end_)
            pure (place target.items start (run ++ rest))) s := by
          refine bindSame ((mergePerm _ _ s).mono (fun run t perm => ?_) fun _ _ _ => True.intro)
          have size := perm.length_eq
          rw [List.length_append,source.sliceLength (Nat.min_le_right _ _),source.sliceLength (Nat.min_le_right _ _)] at size
          have behind : end_ = start+run.length := by omega
          refine congrFun (bind_congr fun rest => congrArg pure ?_) t
          rw [behind]
          exact placeAfter (by rw [target.length]; exact inside) run rest
  | case2 start target done =>
    have none_ : source.items.drop start = [] := by
      rw [List.drop_eq_nil_iff,source.length]
      omega
    rw [passLoop,dif_neg done,none_,mergeRuns,if_pos rfl,pure_bind,pure_bind,placeNothing]

theorem passAfter {short width positive s} {Q : List α → σ → Prop} {E}
    (runs : After (mergeRuns compare width positive source.items) s (fun out t => out.length = n ∧ Q out t) E) :
    After (passLoop compare short source width positive 0 target) s (fun out t => Q out.items t) E := by
  have same : After (do let out ← passLoop compare short source width positive 0 target; pure out.items) s Q E := by
    unfold After
    rw [passLoopPlaces (Nat.zero_le n),List.drop_zero]
    change After (do let out ← mergeRuns compare width positive source.items; pure (place target.items 0 out)) s Q E
    rw [afterBind]
    refine runs.mono (fun out t found => ?_) fun _ _ failed => failed
    have whole : place target.items 0 out = out := by
      rw [place,List.take_zero,List.nil_append,Nat.zero_add,found.1,List.drop_of_length_le target.length.le,List.append_nil]
    rw [afterPure,whole]
    exact found.2
  rwa [afterBind] at same

end Loops

section Sorted
variable {inside : α → Prop} {steady : σ → Prop} {compare : Comparison α σ ε} {le : α → α → Bool} {E : ε → σ → Prop} {s : σ}

theorem sortLoopPerm {short : n ≤ usizeMax} {width positive source target} (s) :
    After (sortLoop compare short width positive source target) s (fun out _ => out.items.Perm source.items) fun _ _ => True := by
  induction width, positive, source, target using sortLoop.induct short generalizing s with
  | case1 width positive source target more ih =>
    rw [sortLoop,dif_pos more,afterBind]
    refine (passAfter ((mergeRunsPerm source.items s).mono (fun out t perm => ⟨perm.length_eq.trans source.length,perm⟩) fun _ _ _ => True.intro)).mono ?_ fun _ _ _ => True.intro
    intro next t perm
    exact (ih next t).mono (fun out _ perm' => perm'.trans perm) fun _ _ _ => True.intro
  | case2 width positive source target done =>
    rw [sortLoop,dif_neg done]
    exact List.Perm.refl _

theorem sortLoopArranged {short : n ≤ usizeMax} {width positive source target original}
    (consistent : Consistent inside steady compare le E) (all : ∀ x ∈ original, inside x) (passed : Passed inside le width original source.items)
    (holds : steady s) :
    After (sortLoop compare short width positive source target) s (fun out t => steady t ∧ Arranged inside le original out.items) E := by
  induction width, positive, source, target using sortLoop.induct short generalizing s with
  | case1 width positive source target more ih =>
    rw [sortLoop,dif_pos more,afterBind]
    refine (passAfter ((mergeRunsPassed consistent (fun x among => all x (passed.perm.mem_iff.mp among)) passed.runs holds).mono
      (fun out t found => ⟨found.2.perm.length_eq.trans source.length,found⟩) fun _ _ failed => failed)).mono ?_ fun _ _ failed => failed
    rintro next t ⟨holds',passed'⟩
    refine ih next ((passed'.after passed).widths ?_) holds'
    rw [next.length]
    simp only [saturatingMul]
    omega
  | case2 width positive source target done =>
    rw [sortLoop,dif_neg done]
    exact ⟨holds,passed.whole (by rw [source.length]; omega)⟩

theorem stableSortPerm (source s) : After (stableSort compare source) s (fun out _ => out.items.Perm source.items) fun _ _ => True := by
  rw [stableSort,afterIte]
  refine ⟨fun _ => List.Perm.refl _,fun _ => ?_⟩
  rw [afterBind]
  exact sortLoopPerm s

theorem stableSortArranged {source} (consistent : Consistent inside steady compare le E) (all : ∀ x ∈ source.items, inside x)
    (holds : steady s) : After (stableSort compare source) s (fun out t => steady t ∧ Arranged inside le source.items out.items) E := by
  have start : Passed inside le 1 source.items source.items := ⟨List.Perm.refl _,runsSingle le source.items,fun _ _ => rfl⟩
  rw [stableSort,afterIte]
  refine ⟨fun few => ⟨holds,start.whole (by omega)⟩,fun _ => ?_⟩
  rw [afterBind]
  exact sortLoopArranged consistent all start holds

end Sorted

end Bamts.TypedSort
