import Bamts.Outcome

/-! Byte readers with a cursor, for any decoder state and error type. A reader is
tied to a grammar: `Reads r g` says that `r` succeeds exactly on the inputs that
begin with a word of `g`, consumes that word and nothing else, and leaves the
counters as `g` says. The rules compose readers in sequence and in loops. -/
set_option linter.all false
namespace Bamts.ByteReader
open Outcome

abbrev Bytes := List UInt8

class Cursor (σ : Type) where
  rest : σ → Bytes
  advance : Nat → σ → σ
  restAdvance : ∀ n s, rest (advance n s) = (rest s).drop n
  advanceZero : ∀ s, advance 0 s = s
  advanceAdd : ∀ a b s, advance b (advance a s) = advance (a+b) s
  -- The cursor stands inside the input.
  Inside : σ → Prop
  insideAdvance : ∀ n s, Inside s → n ≤ (rest s).length → Inside (advance n s)

variable {σ ε α β γ δ κ τ : Type}

theorem bindRun {r} {f : α → StateT σ (Except ε) β} {s s' b} :
    (r >>= f) s = .ok (b,s') ↔ ∃ a t, r s = .ok (a,t) ∧ f a t = .ok (b,s') := by
  change (r s >>= fun p => f p.1 p.2) = .ok (b,s') ↔ _
  rw [bindOk]
  simp

/- `g s a word t`: from state `s` the value `a` may be spelled `word`; `t` is `s` with
its counters updated and its cursor not yet moved. -/
abbrev Grammar (σ α : Type) := σ → α → Bytes → σ → Prop

section Rules
variable [Cursor σ]
open Cursor

def Reads (r : StateT σ (Except ε) α) (g : Grammar σ α) : Prop :=
  ∀ s a s', Inside s → (r s = .ok (a,s') ↔
    ∃ word tail t, g s a word t ∧ rest s = word ++ tail ∧ s' = advance word.length t)

structure Local (g : Grammar σ α) : Prop where
  keeps : ∀ {s a word t}, g s a word t → rest t = rest s ∧ (Inside s → Inside t)
  commutes : ∀ {n s a word u}, g (advance n s) a word u ↔ ∃ t, g s a word t ∧ u = advance n t

def plain (spells : α → Bytes → Prop) : Grammar σ α := fun s a word t => spells a word ∧ t = s

theorem plainLocal (spells) : Local (plain spells : Grammar σ α) := by
  constructor
  · rintro s a word t ⟨_,rfl⟩
    exact ⟨rfl,id⟩
  · intro n s a word u
    constructor
    · rintro ⟨spelled,rfl⟩
      exact ⟨s,⟨spelled,rfl⟩,rfl⟩
    · rintro ⟨t,⟨spelled,rfl⟩,rfl⟩
      exact ⟨spelled,rfl⟩

def chain (g : Grammar σ α) (h : α → Grammar σ β) : Grammar σ β := fun s b word u =>
  ∃ a left right t, g s a left t ∧ h a t b right u ∧ word = left ++ right

theorem chainLocal {g} {h : α → Grammar σ β} (first : Local g) (second : ∀ a, Local (h a)) :
    Local (chain g h) := by
  constructor
  · rintro s b word u ⟨a,left,right,t,spelled,spelled',_⟩
    obtain ⟨before,safe⟩ := first.keeps spelled
    obtain ⟨after,safe'⟩ := (second a).keeps spelled'
    exact ⟨after.trans before,fun inside => safe' (safe inside)⟩
  · intro n s b word u
    constructor
    · rintro ⟨a,left,right,t,spelled,spelled',rfl⟩
      obtain ⟨t',before,rfl⟩ := first.commutes.mp spelled
      obtain ⟨u',after,rfl⟩ := (second a).commutes.mp spelled'
      exact ⟨u',⟨a,left,right,t',before,after,rfl⟩,rfl⟩
    · rintro ⟨u',⟨a,left,right,t,spelled,spelled',rfl⟩,rfl⟩
      exact ⟨a,left,right,_,first.commutes.mpr ⟨t,spelled,rfl⟩,(second a).commutes.mpr ⟨u',spelled',rfl⟩,rfl⟩

theorem readsPure (x) : Reads (pure x : StateT σ (Except ε) α) (plain fun a word => a = x ∧ word = []) := by
  intro s a s' _
  change (Except.ok (x,s) : Except ε (α × σ)) = .ok (a,s') ↔ _
  constructor
  · intro h
    cases h
    exact ⟨[],rest s,s,⟨⟨rfl,rfl⟩,rfl⟩,rfl,(advanceZero s).symm⟩
  · rintro ⟨word,tail,t,⟨⟨rfl,rfl⟩,rfl⟩,_,rfl⟩
    rw [List.length_nil,advanceZero]

theorem readsBind {r} {f : α → StateT σ (Except ε) β} {g h} (head : Reads r g) (tail : ∀ a, Reads (f a) (h a))
    (first : Local g) (second : ∀ a, Local (h a)) : Reads (r >>= f) (chain g h) := by
  intro s b s' inside
  have after : ∀ {a left more mid}, g s a left mid → rest s = left ++ more →
      Inside (advance left.length mid) ∧ rest (advance left.length mid) = more := by
    intro a left more mid spelled here
    obtain ⟨same,safe⟩ := first.keeps spelled
    refine ⟨insideAdvance _ _ (safe inside) ?_,?_⟩
    · rw [same,here,List.length_append]
      exact Nat.le_add_right _ _
    · rw [restAdvance,same,here,List.drop_left]
  rw [bindRun]
  constructor
  · rintro ⟨a,t,ra,fb⟩
    obtain ⟨left,more,mid,spelled,here,rfl⟩ := (head s a t inside).mp ra
    obtain ⟨safe,next⟩ := after spelled here
    obtain ⟨right,remaining,u,spelled',there,rfl⟩ := (tail a _ b s' safe).mp fb
    rw [next] at there
    obtain ⟨u',after,rfl⟩ := (second a).commutes.mp spelled'
    refine ⟨left ++ right,remaining,u',⟨a,left,right,mid,spelled,after,rfl⟩,?_,?_⟩
    · rw [here,there,List.append_assoc]
    · rw [advanceAdd,List.length_append]
  · rintro ⟨word,remaining,u,⟨a,left,right,mid,spelled,spelled',rfl⟩,here,rfl⟩
    rw [List.append_assoc] at here
    obtain ⟨safe,next⟩ := after spelled here
    refine ⟨a,advance left.length mid,(head s a _ inside).mpr ⟨left,right ++ remaining,mid,spelled,here,rfl⟩,?_⟩
    refine (tail a _ b _ safe).mpr ⟨right,remaining,advance left.length u,?_,next,?_⟩
    · exact (second a).commutes.mpr ⟨u,spelled',rfl⟩
    · rw [advanceAdd,List.length_append]

theorem Reads.congr {r : StateT σ (Except ε) α} {g h} (reads : Reads r g) (same : ∀ s a word t, g s a word t ↔ h s a word t) : Reads r h := by
  have equal : g = h := by funext s a word t; exact propext (same s a word t)
  rwa [← equal]

theorem Local.congr {g h : Grammar σ α} (local_ : Local g) (same : ∀ s a word t, g s a word t ↔ h s a word t) : Local h := by
  have equal : g = h := by funext s a word t; exact propext (same s a word t)
  rwa [← equal]

/- Loops: `n` values in a row, the reader told the position of its item. -/
def readEach (r : Nat → StateT σ (Except ε) α) : Nat → Nat → StateT σ (Except ε) (List α)
  | _, 0 => pure []
  | index, n+1 => do
    let a ← r index
    let as ← readEach r (index+1) n
    pure (a :: as)

def readN (r : StateT σ (Except ε) α) (n : Nat) : StateT σ (Except ε) (List α) := readEach (fun _ => r) 0 n

def row (g : Grammar σ α) : Grammar σ (List α)
  | s, [], word, t => word = [] ∧ t = s
  | s, a :: as, word, u => ∃ left right t, g s a left t ∧ row g t as right u ∧ word = left ++ right

theorem rowLocal {g : Grammar σ α} (item : Local g) : Local (row g) := by
  constructor
  · intro s as word t
    induction as generalizing s word t with
    | nil => rintro ⟨_,rfl⟩; exact ⟨rfl,id⟩
    | cons a as ih =>
      rintro ⟨left,right,mid,spelled,others,_⟩
      obtain ⟨before,safe⟩ := item.keeps spelled
      obtain ⟨after,safe'⟩ := ih others
      exact ⟨after.trans before,fun inside => safe' (safe inside)⟩
  · intro n s as word u
    induction as generalizing s word u with
    | nil =>
      constructor
      · rintro ⟨empty,rfl⟩
        exact ⟨s,⟨empty,rfl⟩,rfl⟩
      · rintro ⟨t,⟨empty,rfl⟩,rfl⟩
        exact ⟨empty,rfl⟩
    | cons a as ih =>
      constructor
      · rintro ⟨left,right,mid,spelled,others,rfl⟩
        obtain ⟨mid',before,rfl⟩ := item.commutes.mp spelled
        obtain ⟨u',after,rfl⟩ := ih.mp others
        exact ⟨u',⟨left,right,mid',before,after,rfl⟩,rfl⟩
      · rintro ⟨u',⟨left,right,mid,spelled,others,rfl⟩,rfl⟩
        exact ⟨left,right,_,item.commutes.mpr ⟨mid,spelled,rfl⟩,ih.mpr ⟨u',others,rfl⟩,rfl⟩

theorem rowLengthLocal {g : Grammar σ α} (item : Local g) (n) :
    Local (fun s (as : List α) word t => as.length = n ∧ row g s as word t) := by
  have whole := rowLocal item
  refine ⟨fun h => whole.keeps h.2,?_⟩
  intro m s as word u
  rw [whole.commutes]
  constructor
  · rintro ⟨size,t,spelled,rfl⟩
    exact ⟨t,⟨size,spelled⟩,rfl⟩
  · rintro ⟨t,⟨size,spelled⟩,rfl⟩
    exact ⟨size,t,spelled,rfl⟩

theorem readsEach {r : Nat → StateT σ (Except ε) α} {g} (item : ∀ i, Reads (r i) g) (stays : Local g)
    (index n) : Reads (readEach r index n) (fun s as word t => as.length = n ∧ row g s as word t) := by
  induction n generalizing index with
  | zero =>
    refine (readsPure []).congr ?_
    intro s as word t
    constructor
    · rintro ⟨⟨rfl,empty⟩,same⟩
      exact ⟨rfl,empty,same⟩
    · rintro ⟨size,spelled⟩
      cases List.length_eq_zero_iff.mp size
      exact ⟨⟨rfl,spelled.1⟩,spelled.2⟩
  | succ n ih =>
    have whole := readsBind (item index) (fun a => readsBind (ih (index+1)) (fun as => readsPure (a :: as)) (rowLengthLocal stays n)
      (fun as => plainLocal _)) stays (fun a => chainLocal (rowLengthLocal stays n) (fun as => plainLocal _))
    refine whole.congr ?_
    intro s as word t
    constructor
    · rintro ⟨a,left,right,mid,spelled,⟨rest,word',empty,mid',⟨size,others⟩,⟨⟨rfl,rfl⟩,rfl⟩,rfl⟩,rfl⟩
      exact ⟨by rw [List.length_cons,size],left,word',mid,spelled,others,by rw [List.append_nil]⟩
    · rintro ⟨size,spelled⟩
      cases as with
      | nil => cases size
      | cons a rest =>
        obtain ⟨left,right,mid,first,others,rfl⟩ := spelled
        exact ⟨a,left,right,mid,first,⟨rest,right,[],t,⟨by simpa using size,others⟩,⟨⟨rfl,rfl⟩,rfl⟩,
          (List.append_nil _).symm⟩,rfl⟩

theorem readsN {r : StateT σ (Except ε) α} {g} (item : Reads r g) (stays : Local g) (n) :
    Reads (readN r n) (fun s as word t => as.length = n ∧ row g s as word t) :=
  readsEach (fun _ => item) stays 0 n

theorem readsRow {r : Nat → StateT σ (Except ε) α} {g} (item : ∀ i, Reads (r i) g) (stays : Local g) (index n) (make : List α → β) :
    Reads (do let as ← readEach r index n; pure (make as))
      (fun s b word t => ∃ as, b = make as ∧ as.length = n ∧ row g s as word t) ∧
    Local (fun s (b : β) word t => ∃ as, b = make as ∧ as.length = n ∧ row g s as word t) := by
  have rows := rowLengthLocal stays n
  have same : ∀ (s : σ) (b : β) (word : Bytes) (t : σ),
      chain (fun s as word t => as.length = n ∧ row g s as word t)
        (fun as => plain fun b word => b = make as ∧ word = []) s b word t ↔
      ∃ as, b = make as ∧ as.length = n ∧ row g s as word t := by
    intro s b word t
    constructor
    · intro h
      obtain ⟨as,left,_,_,⟨size,spelled⟩,⟨⟨rfl,rfl⟩,rfl⟩,rfl⟩ := h
      rw [List.append_nil]
      exact ⟨as,rfl,size,spelled⟩
    · intro h
      obtain ⟨as,rfl,size,spelled⟩ := h
      exact ⟨as,word,[],t,⟨size,spelled⟩,⟨⟨rfl,rfl⟩,rfl⟩,(List.append_nil _).symm⟩
  exact ⟨(readsBind (readsEach item stays index n) (fun as => readsPure (make as)) rows fun as => plainLocal _).congr same,
    (chainLocal rows fun as => plainLocal _).congr same⟩

/- When every value has one spelling and no counter moves, a row is a concatenation. -/
omit [Cursor σ] in
theorem rowPlain (write : α → Bytes) (ok : α → Prop) (s t : σ) (as : List α) (word : Bytes) :
    row (plain fun a word => word = write a ∧ ok a) s as word t ↔
      word = as.flatMap write ∧ (∀ a ∈ as, ok a) ∧ t = s := by
  induction as generalizing s word with
  | nil => simp [row]
  | cons a as ih =>
    constructor
    · rintro ⟨left,right,mid,⟨⟨rfl,good⟩,rfl⟩,others,rfl⟩
      obtain ⟨rfl,all,rfl⟩ := (ih _ _).mp others
      refine ⟨by rw [List.flatMap_cons],?_,rfl⟩
      intro b member
      rcases List.mem_cons.mp member with rfl | old
      · exact good
      · exact all b old
    · rintro ⟨rfl,all,rfl⟩
      refine ⟨write a,as.flatMap write,t,⟨⟨rfl,all a List.mem_cons_self⟩,rfl⟩,?_,by rw [List.flatMap_cons]⟩
      exact (ih _ _).mpr ⟨rfl,fun b member => all b (List.mem_cons_of_mem a member),rfl⟩

-- A value with exactly one spelling; the operands of an instruction are of this kind.
class Field (r : StateT σ (Except ε) α) (write : outParam (α → Bytes)) : Prop where
  reads : Reads r (plain fun a word => word = write a)

theorem seq1 {r : StateT σ (Except ε) α} {w} [h : Field r w] (g : α → κ) :
    Reads (do let a ← r; pure (g a)) (plain fun c word => ∃ a, c = g a ∧ word = w a) := by
  refine (readsBind h.reads (fun a => readsPure (g a)) (plainLocal _) (fun a => plainLocal _)).congr ?_
  intro s c word t
  constructor
  · rintro ⟨a,left,right,mid,⟨rfl,rfl⟩,⟨⟨rfl,rfl⟩,rfl⟩,rfl⟩
    exact ⟨⟨a,rfl,List.append_nil _⟩,rfl⟩
  · rintro ⟨⟨a,rfl,rfl⟩,rfl⟩
    exact ⟨a,_,[],t,⟨rfl,rfl⟩,⟨⟨rfl,rfl⟩,rfl⟩,(List.append_nil _).symm⟩

theorem Reads.respell {r : StateT σ (Except ε) α} {a b} (reads : Reads r (plain a)) (same : ∀ x word, a x word ↔ b x word) : Reads r (plain b) :=
  reads.congr fun _ x word _ => and_congr_left fun _ => same x word

def after (spells : α → Bytes → Prop) (g : α → Grammar σ β) : Grammar σ β := fun s b word t =>
  ∃ a left right, spells a left ∧ g a s b right t ∧ word = left ++ right

omit [Cursor σ] in
theorem afterChain (spells : α → Bytes → Prop) (g : α → Grammar σ β) (s : σ) (b : β) (word : Bytes) (t : σ) :
    chain (plain spells) g s b word t ↔ after spells g s b word t := by
  constructor
  · rintro ⟨a,left,right,mid,⟨spelled,rfl⟩,spelled',rfl⟩
    exact ⟨a,left,right,spelled,spelled',rfl⟩
  · rintro ⟨a,left,right,spelled,spelled',rfl⟩
    exact ⟨a,left,right,s,⟨spelled,rfl⟩,spelled',rfl⟩

theorem readsAfter {r} {f : α → StateT σ (Except ε) β} {spells g} (head : Reads r (plain spells)) (tail : ∀ a, Reads (f a) (g a) ∧ Local (g a)) :
    Reads (r >>= f) (after spells g) ∧ Local (after spells g) :=
  ⟨(readsBind head (fun a => (tail a).1) (plainLocal _) fun a => (tail a).2).congr (afterChain spells g),
    (chainLocal (plainLocal _) fun a => (tail a).2).congr (afterChain spells g)⟩

def bump (ok : σ → Prop) (update : σ → σ) (g : Grammar σ α) : Grammar σ α := fun s a word t => ok s ∧ g (update s) a word t

structure Steady (ok : σ → Prop) (update : σ → σ) : Prop where
  rests : ∀ s, rest (update s) = rest s
  inside : ∀ s, Inside s → Inside (update s)
  okAdvance : ∀ n s, ok (advance n s) ↔ ok s
  updateAdvance : ∀ n s, update (advance n s) = advance n (update s)

theorem readsBump {act} {r : StateT σ (Except ε) α} {ok update g} (steady : Steady ok update) (runs : ∀ s s', act s = .ok ((),s') ↔ ok s ∧ s' = update s)
    (tail : Reads r g ∧ Local g) : Reads (act >>= fun _ => r) (bump ok update g) ∧ Local (bump ok update g) := by
  constructor
  · intro s a s' inside
    rw [bindRun]
    constructor
    · intro h
      obtain ⟨_,t,counted,read⟩ := h
      obtain ⟨good,rfl⟩ := (runs s t).mp counted
      obtain ⟨word,more,u,spelled,here,rfl⟩ := (tail.1 _ a s' (steady.inside s inside)).mp read
      rw [steady.rests] at here
      exact ⟨word,more,u,⟨good,spelled⟩,here,rfl⟩
    · intro h
      obtain ⟨word,more,u,⟨good,spelled⟩,here,rfl⟩ := h
      refine ⟨(),update s,(runs s _).mpr ⟨good,rfl⟩,(tail.1 _ a _ (steady.inside s inside)).mpr ?_⟩
      exact ⟨word,more,u,spelled,by rw [steady.rests,here],rfl⟩
  · constructor
    · intro s a word t h
      obtain ⟨same,safe⟩ := tail.2.keeps h.2
      exact ⟨same.trans (steady.rests s),fun inside => safe (steady.inside s inside)⟩
    · intro n s a word u
      unfold bump
      rw [steady.okAdvance,steady.updateAdvance,tail.2.commutes]
      constructor
      · intro h
        obtain ⟨good,t,spelled,rfl⟩ := h
        exact ⟨t,⟨good,spelled⟩,rfl⟩
      · intro h
        obtain ⟨t,⟨good,spelled⟩,rfl⟩ := h
        exact ⟨good,t,spelled,rfl⟩

theorem readsSeq {r : StateT σ (Except ε) α} {f spells}
    {more : α → β → Bytes → Prop} (head : Reads r (plain spells)) (tail : ∀ a, Reads (f a) (plain (more a))) :
    Reads (r >>= f) (plain fun b word => ∃ a left right, spells a left ∧ more a b right ∧ word = left ++ right) := by
  refine (readsAfter head fun a => ⟨tail a,plainLocal _⟩).1.congr ?_
  intro s b word t
  constructor
  · rintro ⟨a,left,right,spelled,⟨spelled',rfl⟩,rfl⟩
    exact ⟨⟨a,left,right,spelled,spelled',rfl⟩,rfl⟩
  · rintro ⟨⟨a,left,right,spelled,spelled',rfl⟩,rfl⟩
    exact ⟨a,left,right,spelled,⟨spelled',rfl⟩,rfl⟩

theorem seqCons {r : StateT σ (Except ε) α} {w} [h : Field r w] {f} {spells : α → κ → Bytes → Prop} (tail : ∀ a, Reads (f a) (plain (spells a))) :
    Reads (r >>= f) (plain fun c word => ∃ a right, spells a c right ∧ word = w a ++ right) := by
  refine (readsSeq h.reads tail).respell ?_
  intro c word
  constructor
  · rintro ⟨a,left,right,rfl,spelled,rfl⟩
    exact ⟨a,right,spelled,rfl⟩
  · rintro ⟨a,right,spelled,rfl⟩
    exact ⟨a,w a,right,rfl,spelled,rfl⟩

theorem Reads.forward {r : StateT σ (Except ε) α} {spells s s' a} (reads : Reads r (plain spells)) (inside : Inside s) (h : r s = .ok (a,s')) :
    ∃ word tail, spells a word ∧ rest s = word ++ tail ∧ s' = advance word.length s := by
  obtain ⟨word,tail,t,⟨spelled,rfl⟩,here,rfl⟩ := (reads s a s' inside).mp h
  exact ⟨word,tail,spelled,here,rfl⟩

theorem Reads.backward {r : StateT σ (Except ε) α} {spells s a word tail}
    (reads : Reads r (plain spells)) (inside : Inside s) (spelled : spells a word) (here : rest s = word ++ tail) :
    r s = .ok (a,advance word.length s) :=
  (reads s a _ inside).mpr ⟨word,tail,s,⟨spelled,rfl⟩,here,rfl⟩

theorem Reads.intro {r : StateT σ (Except ε) α} {spells} (sound : ∀ {s a s'}, Inside s → r s = .ok (a,s') →
      ∃ word tail, spells a word ∧ rest s = word ++ tail ∧ s' = advance word.length s)
    (complete : ∀ {s a word tail}, Inside s → spells a word → rest s = word ++ tail →
      r s = .ok (a,advance word.length s)) : Reads r (plain spells) := by
  intro s a s' inside
  constructor
  · intro h
    obtain ⟨word,tail,spelled,here,rfl⟩ := sound inside h
    exact ⟨word,tail,s,⟨spelled,rfl⟩,here,rfl⟩
  · rintro ⟨word,tail,t,⟨spelled,rfl⟩,here,rfl⟩
    exact complete inside spelled here

theorem readsFields {r : StateT σ (Except ε) α} {w} [h : Field r w] (n) :
    Reads (readN r n) (plain fun as word => as.length = n ∧ word = as.flatMap w) := by
  refine (readsN h.reads (plainLocal _) n).congr ?_
  intro s as word t
  have all := rowPlain w (fun _ => True) s t as word
  simp only [and_true,implies_true,true_and] at all
  rw [all,plain,and_assoc]

theorem seq2 {r₁ : StateT σ (Except ε) α} {r₂ w₁ w₂} [Field r₁ w₁] [Field r₂ w₂] (g : α → β → κ) :
    Reads (do let a ← r₁; let b ← r₂; pure (g a b))
      (plain fun c word => ∃ a b, c = g a b ∧ word = w₁ a ++ w₂ b) := by
  refine (seqCons fun a => seq1 (g a)).respell ?_
  grind

theorem seq3 {r₁ : StateT σ (Except ε) α} {r₂ r₃ w₁ w₂ w₃} [Field r₁ w₁] [Field r₂ w₂] [Field r₃ w₃] (g : α → β → γ → κ) :
    Reads (do let a ← r₁; let b ← r₂; let c ← r₃; pure (g a b c))
      (plain fun x word => ∃ a b c, x = g a b c ∧ word = w₁ a ++ (w₂ b ++ w₃ c)) := by
  refine (seqCons fun a => seq2 (g a)).respell ?_
  grind

theorem seq4 {r₁ : StateT σ (Except ε) α} {r₂ r₃ r₄ w₁ w₂ w₃ w₄} [Field r₁ w₁] [Field r₂ w₂] [Field r₃ w₃] [Field r₄ w₄] (g : α → β → γ → δ → κ) :
    Reads (do let a ← r₁; let b ← r₂; let c ← r₃; let d ← r₄; pure (g a b c d))
      (plain fun x word => ∃ a b c d, x = g a b c d ∧ word = w₁ a ++ (w₂ b ++ (w₃ c ++ w₄ d))) := by
  refine (seqCons fun a => seq3 (g a)).respell ?_
  grind

end Rules

/- Decoders that keep the whole input and an offset into it. -/
class Buffered (σ : Type) extends Cursor σ where
  bytes : σ → Bytes
  offset : σ → Nat
  restIs : ∀ s, rest s = (bytes s).drop (offset s)
  insideIs : ∀ s, Inside s → offset s ≤ (bytes s).length

section Buffer
variable [Buffered σ]
open Cursor Buffered

def position : StateT σ (Except ε) Nat := fun s => .ok (offset s,s)

def demand (value : Option α) (e : ε) : StateT σ (Except ε) α := fun s =>
  match value with
  | none => .error e
  | some a => .ok (a,s)

def nextByte (eof : Nat → ε) : StateT σ (Except ε) UInt8 := fun s =>
  match (bytes s)[offset s]? with
  | none => .error (eof (offset s))
  | some b => .ok (b,advance 1 s)

def block (eof : Nat → ε) (n : Nat) : StateT σ (Except ε) Bytes := fun s =>
  if offset s + n ≤ (bytes s).length then .ok (((bytes s).drop (offset s)).take n,advance n s)
  else .error (eof (offset s))

def oneOf (eof : Nat → ε) (fromTag : UInt8 → Option α) (bad : Nat → UInt8 → ε) : StateT σ (Except ε) α := do
  let start ← position
  let tag ← nextByte eof
  demand (fromTag tag) (bad start tag)

theorem readsPosition {f : Nat → StateT σ (Except ε) α} {g} (all : ∀ n, Reads (f n) g) :
    Reads (position >>= f) g := by
  intro s a s' inside
  rw [bindRun]
  constructor
  · intro h
    obtain ⟨n,t,found,later⟩ := h
    cases found
    exact (all _ s a s' inside).mp later
  · intro spelled
    exact ⟨offset s,s,rfl,(all _ s a s' inside).mpr spelled⟩

theorem readsDemand (value e) :
    Reads (demand value e : StateT σ (Except ε) α) (plain fun a word => value = some a ∧ word = []) := by
  cases value with
  | none =>
    refine Reads.intro ?_ ?_
    · intro s a s' _ h
      cases h
    · intro s a word tail _ h
      cases h.1
  | some x =>
    refine (readsPure x).respell ?_
    intro a word
    rw [Option.some.injEq,eq_comm]

theorem dropHead {bytes : Bytes} {offset b} {tail : Bytes}
    (h : bytes.drop offset = b :: tail) : bytes[offset]? = some b ∧ bytes.drop (offset+1) = tail := by
  constructor
  · have head := congrArg List.head? h
    simpa using head
  · rw [← List.drop_drop,h,List.drop_one,List.tail_cons]

theorem dropOf {bytes : Bytes} {offset b} (h : bytes[offset]? = some b) :
    bytes.drop offset = b :: bytes.drop (offset+1) := by
  obtain ⟨inside,rfl⟩ := List.getElem?_eq_some_iff.mp h
  exact List.drop_eq_getElem_cons inside

theorem readsNextByte (eof) : Reads (nextByte eof : StateT σ (Except ε) UInt8)
    (plain fun b word => word = [b]) := by
  refine Reads.intro ?_ ?_
  · intro s b s' _ h
    unfold nextByte at h
    cases found : (bytes s)[offset s]? with
    | none => rw [found] at h; cases h
    | some c =>
      rw [found] at h
      cases h
      exact ⟨[b],(bytes s).drop (offset s+1),rfl,by rw [restIs,dropOf found]; rfl,rfl⟩
  · intro s b word tail _ spelled here
    subst spelled
    rw [restIs] at here
    unfold nextByte
    rw [(dropHead here).1]
    rfl

theorem readsBlock (eof n) : Reads (block eof n : StateT σ (Except ε) Bytes)
    (plain fun taken word => word = taken ∧ taken.length = n) := by
  refine Reads.intro ?_ ?_
  · intro s taken s' _ h
    unfold block at h
    split at h
    · cases h
      have size : (((bytes s).drop (offset s)).take n).length = n := by
        rw [List.length_take,List.length_drop]
        omega
      refine ⟨_,((bytes s).drop (offset s)).drop n,⟨rfl,size⟩,?_,by rw [size]⟩
      rw [restIs,List.take_append_drop]
    · cases h
  · intro s taken word tail inside spelled here
    obtain ⟨rfl,rfl⟩ := spelled
    rw [restIs] at here
    have size := congrArg List.length here
    rw [List.length_drop,List.length_append] at size
    have bound := insideIs s inside
    unfold block
    rw [if_pos (by omega),here,List.take_left]

theorem readsOneOf {toTag : α → UInt8} {fromTag} (eof bad) (tags : ∀ tag a, fromTag tag = some a ↔ tag = toTag a) :
    Reads (oneOf eof fromTag bad : StateT σ (Except ε) α) (plain fun a word => word = [toTag a]) := by
  refine readsPosition fun start => ?_
  refine (readsSeq (readsNextByte eof) fun tag => readsDemand (fromTag tag) (bad start tag)).respell ?_
  intro a word
  constructor
  · intro h
    obtain ⟨tag,left,right,rfl,⟨found,rfl⟩,rfl⟩ := h
    rw [(tags tag a).mp found]
    rfl
  · intro h
    subst h
    exact ⟨toTag a,_,[],rfl,⟨(tags _ a).mpr rfl,rfl⟩,rfl⟩

def literal (eof : Nat → ε) (bad : UInt8 → Nat → UInt8 → ε) : Bytes → StateT σ (Except ε) Unit
  | [] => pure ()
  | expected :: rest => do
    oneOf eof (fun actual => if actual = expected then some () else none) (bad expected)
    literal eof bad rest

theorem readsExpected (eof bad expected) :
    Reads (oneOf eof (fun actual => if actual = expected then some () else none) bad : StateT σ (Except ε) Unit)
      (plain fun _ word => word = [expected]) := by
  refine readsOneOf eof bad ?_
  intro actual _
  split <;> simp [*]

theorem readsLiteral (eof bad expected) :
    Reads (literal eof bad expected : StateT σ (Except ε) Unit) (plain fun _ word => word = expected) := by
  induction expected with
  | nil => exact (readsPure ()).respell fun _ word => by simp
  | cons b rest ih =>
    refine (readsSeq (readsExpected eof (bad b) b) fun _ => ih).respell ?_
    intro _ word
    constructor
    · intro h
      obtain ⟨_,_,_,rfl,rfl,rfl⟩ := h
      rfl
    · intro h
      exact ⟨(),_,_,rfl,rfl,h⟩

end Buffer

end Bamts.ByteReader
