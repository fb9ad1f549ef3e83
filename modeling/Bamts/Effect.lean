import Mathlib.Init

/-! Pre- and postconditions for computations that carry a state through failures: the state
a failed computation leaves behind is still there. -/
set_option linter.all false
namespace Bamts.Effect

variable {ε σ α β : Type}

def read : EStateM ε σ σ := fun s => .ok s s
def update (f : σ → σ) : EStateM ε σ Unit := fun s => .ok () (f s)
def fail (e : ε) : EStateM ε σ α := fun s => .error e s
def lift : Except ε α → EStateM ε σ α
  | .ok a => fun s => .ok a s
  | .error e => fun s => .error e s

-- An `if` without an `else`.
def given (c : Bool) (p : EStateM ε σ Unit) : EStateM ε σ Unit := if c then p else pure ()

-- `Q` after a normal return and `E` after a failure.
def After (p : EStateM ε σ α) (s : σ) (Q : α → σ → Prop) (E : ε → σ → Prop) : Prop :=
  match p s with
  | .ok a t => Q a t
  | .error e t => E e t

variable {s : σ} {Q : α → σ → Prop} {E : ε → σ → Prop}

@[simp] theorem afterPure {a} : After (pure a) s Q E ↔ Q a s := Iff.rfl

@[simp] theorem afterRead {Q} : After (read : EStateM ε σ σ) s Q E ↔ Q s s := Iff.rfl

@[simp] theorem afterUpdate {f Q} : After (update f) s Q E ↔ Q () (f s) := Iff.rfl

@[simp] theorem afterFail {e} : After (fail e) s Q E ↔ E e s := Iff.rfl

@[simp] theorem afterLiftOk {a} : After (lift (.ok a)) s Q E ↔ Q a s := Iff.rfl

@[simp] theorem afterLiftError {e} : After (lift (.error e)) s Q E ↔ E e s := Iff.rfl

@[simp] theorem afterBind {p : EStateM ε σ β} {f} :
    After (p >>= f) s Q E ↔ After p s (fun b t => After (f b) t Q E) E := by
  simp only [After,bind,EStateM.bind]
  cases p s with
  | ok b t => rfl
  | error e t => rfl

@[simp] theorem afterIte {c} [Decidable c] {p q} :
    After (if c then p else q) s Q E ↔ (c → After p s Q E) ∧ (¬c → After q s Q E) := by
  by_cases h : c
  · simp [h]
  · simp [h]

@[simp] theorem afterGiven {c p Q} :
    After (given c p) s Q E ↔ (c → After p s Q E) ∧ (¬c → Q () s) := by
  simp only [given,afterIte,afterPure]

@[simp] theorem afterTryCatch {p h} :
    After (tryCatch p h) s Q E ↔ After p s Q (fun e t => After (h e) t Q E) := by
  simp only [After,tryCatch,tryCatchThe,MonadExceptOf.tryCatch]
  delta EStateM.tryCatch
  cases p s with
  | ok a t => rfl
  | error e t => rfl

theorem After.mono {p Q' E'} (h : After p s Q E) (ok : ∀ a t, Q a t → Q' a t) (error : ∀ e t, E e t → E' e t) : After p s Q' E' := by
  unfold After at h ⊢
  cases result : p s with
  | ok a t => rw [result] at h; exact ok a t h
  | error e t => rw [result] at h; exact error e t h

theorem After.ok {p a t} (h : After p s Q E) (result : p s = .ok a t) : Q a t := by
  unfold After at h
  rwa [result] at h

theorem After.error {p e t} (h : After p s Q E) (result : p s = .error e t) : E e t := by
  unfold After at h
  rwa [result] at h

theorem After.both {p Q' E'} (first : After p s Q E)
    (second : After p s Q' E') : After p s (fun a t => Q a t ∧ Q' a t) (fun e t => E e t ∧ E' e t) := by
  unfold After at first second ⊢
  cases result : p s with
  | ok a t => rw [result] at first second; exact ⟨first,second⟩
  | error e t => rw [result] at first second; exact ⟨first,second⟩

theorem afterForM {f : α → EStateM ε σ Unit} {I : List α → σ → Prop}
    (step : ∀ x rest t, I (x :: rest) t → After (f x) t (fun _ u => I rest u) E) {xs} (start : I xs s) :
    After (forM xs f) s (fun _ t => I [] t) E := by
  induction xs generalizing s with
  | nil => exact start
  | cons x rest ih =>
    rw [List.forM_cons,afterBind]
    exact (step x rest s start).mono (fun _ t next => ih next) (fun _ _ failed => failed)

def zoom {τ : Type} (get : τ → σ) (set : τ → σ → τ) (p : EStateM ε σ α) : EStateM ε τ α := fun t =>
  match p (get t) with
  | .ok a s => .ok a (set t s)
  | .error e s => .error e (set t s)

theorem afterZoom {τ} {get : τ → σ} {set} {p : EStateM ε σ α} {t Q E} :
    After (zoom get set p) t Q E ↔ After p (get t) (fun a s => Q a (set t s)) (fun e s => E e (set t s)) := by
  simp only [After,zoom]
  cases p (get t) with
  | ok a s => rfl
  | error e s => rfl

def left (p : EStateM ε σ α) (s : σ) : σ :=
  match p s with
  | .ok _ t | .error _ t => t

theorem After.left {p : EStateM ε σ α} {I : σ → Prop} (h : After p s (fun _ t => I t) (fun _ t => I t)) : I (left p s) := by
  unfold After at h
  unfold Effect.left
  cases result : p s with
  | ok a t => rw [result] at h; exact h
  | error e t => rw [result] at h; exact h

theorem leftAfter {p : EStateM ε σ α} {I : σ → Prop} (holds : I (Effect.left p s)) : After p s (fun _ t => I t) fun _ t => I t := by
  unfold Effect.left at holds
  unfold After
  cases result : p s with
  | ok a t =>
    rw [result] at holds
    exact holds
  | error e t =>
    rw [result] at holds
    exact holds

theorem bindDone {p} {f : α → EStateM ε σ β} {s u b} (done : (p >>= f) s = .ok b u) :
    ∃ a t, p s = .ok a t ∧ f a t = .ok b u := by
  simp only [bind,EStateM.bind] at done
  split at done
  · exact ⟨_,_,by assumption,done⟩
  · cases done

theorem doneBind {p} {f : α → EStateM ε σ β} {s t a} (first : p s = .ok a t) : (p >>= f) s = f a t := by
  simp only [bind,EStateM.bind,first]

theorem failedBind {p} {f : α → EStateM ε σ β} {s t e} (first : p s = .error e t) : (p >>= f) s = .error e t := by
  simp only [bind,EStateM.bind,first]

def Keeps {γ : Type} (part : σ → γ) (p : EStateM ε σ α) : Prop := ∀ s, After p s (fun _ t => part t = part s) fun _ t => part t = part s

section
variable {γ : Type} {part : σ → γ}

theorem keepsPure (a) : Keeps part (pure a : EStateM ε σ α) := fun _ => rfl

theorem keepsFail (e) : Keeps part (fail e : EStateM ε σ α) := fun _ => rfl

theorem keepsRead : Keeps part (read : EStateM ε σ σ) := fun _ => rfl

theorem keepsLift (x) : Keeps part (lift x : EStateM ε σ α) := by
  intro s
  cases x with
  | ok a => rfl
  | error e => rfl

theorem keepsUpdate {f} (same : ∀ s, part (f s) = part s) : Keeps part (update f : EStateM ε σ Unit) := same

theorem Keeps.bind {p} {f : α → EStateM ε σ β} (first : Keeps part p) (next : ∀ a, Keeps part (f a)) : Keeps part (p >>= f) := by
  intro s
  rw [afterBind]
  exact (first s).mono (fun a t same => (next a t).mono (fun _ _ later => later.trans same) fun _ _ later => later.trans same) fun _ _ same => same

theorem Keeps.ite {c} [Decidable c] {p q : EStateM ε σ α} (yes : Keeps part p) (no : Keeps part q) : Keeps part (if c then p else q) := by
  split
  · exact yes
  · exact no

end

def Steady (I : σ → Prop) (p : EStateM ε σ α) : Prop := ∀ s, I s → After p s (fun _ t => I t) fun _ t => I t

section
variable {I : σ → Prop} {p : EStateM ε σ α} {f : α → EStateM ε σ β}

theorem steadyPure (a) : Steady I (pure a : EStateM ε σ α) := fun _ holds => holds

theorem steadyFail (e) : Steady I (fail e : EStateM ε σ α) := fun _ holds => holds

theorem steadyLift (x) : Steady I (lift x : EStateM ε σ α) := by
  intro s holds
  cases x with
  | ok a => exact holds
  | error e => exact holds

theorem steadyUpdate {f} (keeps : ∀ s, I s → I (f s)) : Steady I (update f : EStateM ε σ Unit) := keeps

theorem Steady.bind (first : Steady I p) (next : ∀ a, Steady I (f a)) : Steady I (p >>= f) := by
  intro s holds
  rw [afterBind]
  exact (first s holds).mono (fun a t later => next a t later) fun _ _ failed => failed

theorem steadyRead {f : σ → EStateM ε σ β} (next : ∀ s, I s → Steady I (f s)) : Steady I (read >>= f) := fun s holds => next s holds s holds

theorem Steady.ite {c} [Decidable c] {p q : EStateM ε σ α} (yes : c → Steady I p) (no : ¬c → Steady I q) : Steady I (if c then p else q) := by
  split
  · exact yes ‹_›
  · exact no ‹_›

theorem Steady.given {c} {p : EStateM ε σ Unit} (yes : Steady I p) : Steady I (given c p) := .ite (fun _ => yes) fun _ => steadyPure _

theorem Steady.caught {h} (first : Steady I p) (later : ∀ e, Steady I (h e)) : Steady I (tryCatch p h) := by
  intro s holds
  rw [afterTryCatch]
  exact (first s holds).mono (fun _ _ done => done) fun e t failed => later e t failed

end

-- The states a row of operations can lead to. Whoever drives the row catches a failure and goes on
-- from the state it left; `meets` is what every operation of the row has to meet.
inductive Runs {op : Type} (run : op → EStateM ε σ Unit) (meets : op → σ → Prop) (s : σ) : σ → Prop where
  | start : Runs run meets s s
  | step {t : σ} (before : Runs run meets s t) (o : op) (met : meets o t) : Runs run meets s (left (run o) t)

theorem Runs.invariant {op} {run : op → EStateM ε σ Unit} {meets} {I : σ → Prop} {t} (runs : Runs run meets s t) (start : I s)
    (step : ∀ o t, I t → meets o t → After (run o) t (fun _ u => I u) (fun _ u => I u)) : I t := by
  induction runs with
  | start => exact start
  | step before o met ih => exact (step o _ ih met).left

end Bamts.Effect
