import Mlmq.Lib.Transition

/-! # Programs that call operations and throw exceptions

A `Program` is over, with a value or an exception, or calls an operation, which answers or throws.
What the operations do is left to a `Semantics`, so one program has as many meanings as there are
semantics of its operations. `next` goes on with whatever a program ends with; sequence, `catch` and
`finally` are cases of it.

`Runs` are the executions of a program, `wp` the weakest precondition, where a call has a
precondition of its own. A semantics may be a function, and then `exec` executes a program.

`Step` are the steps of threads that share a world, each of which runs one program after the other.
The programs are verified one at a time, on the view that a thread has of the world
(`Safe.step`), and may rely on what all threads guarantee (`Safe.step_relying`). `State.schedule`
executes the threads in a given order. -/

namespace Mlmq.Lib.Programs

open Mlmq.Lib.Transition

/-- A program. `Ans op` is the type of the answers of the operation `op`. -/
inductive Program {Op : Type} (Ans : Op → Type) (ε α : Type) : Type
  | done (r : Except ε α)
  | call (op : Op) (k : Except ε (Ans op) → Program Ans ε α)

/-- What the operations do: from a state, an operation, its answer, and the state behind it. -/
abbrev Semantics {Op : Type} (Ans : Op → Type) (ε σ : Type) : Type :=
  σ → (op : Op) → Except ε (Ans op) → σ → Prop

variable {Op : Type} {Ans : Op → Type} {ε α β σ : Type}

namespace Program

/-! ### Composition -/

/-- Goes on with what the program ends with. -/
def next : Program Ans ε α → (Except ε α → Program Ans ε β) → Program Ans ε β
  | done r, f => f r
  | call op k, f => call op fun a => (k a).next f

/-- The call of one operation. -/
def perform (op : Op) : Program Ans ε (Ans op) := call op done

/-- `throw`. -/
def raise (e : ε) : Program Ans ε α := done (.error e)

instance : Monad (Program Ans ε) where
  pure a := done (.ok a)
  bind p f := p.next fun
    | .ok a => f a
    | .error e => done (.error e)

/-- `try p catch h`, where `h` throws again what it does not handle. -/
def catching (p : Program Ans ε α) (h : ε → Program Ans ε α) : Program Ans ε α :=
  p.next fun
    | .ok a => done (.ok a)
    | .error e => h e

/-- `try p finally c`: what `c` throws replaces what `p` ends with. -/
def andFinally (p : Program Ans ε α) (c : Program Ans ε Unit) : Program Ans ε α :=
  p.next fun r => c.next fun
    | .ok _ => done r
    | .error e => done (.error e)

/-! ### Executions -/

/-- `Runs sem p s r s'`: from `s` the program can end with `r` in `s'`. -/
def Runs (sem : Semantics Ans ε σ) : Program Ans ε α → σ → Except ε α → σ → Prop
  | done r, s, r', s' => r' = r ∧ s' = s
  | call op k, s, r, s' => ∃ a s₁, sem s op a s₁ ∧ Runs sem (k a) s₁ r s'

/-- The execution under a semantics that is a function. -/
def exec (answer : σ → (op : Op) → Except ε (Ans op) × σ) : Program Ans ε α → σ → Except ε α × σ
  | done r, s => (r, s)
  | call op k, s => exec answer (k (answer s op).1) (answer s op).2

/-- The same, as long as the calls meet a check. -/
def execWhile (check : σ → Op → Bool) (answer : σ → (op : Op) → Except ε (Ans op) × σ) :
    Program Ans ε α → σ → Option (Except ε α × σ)
  | done r, s => some (r, s)
  | call op k, s =>
    if check s op then execWhile check answer (k (answer s op).1) (answer s op).2 else none

variable {sem sem' : Semantics Ans ε σ} {p : Program Ans ε α} {s s' : σ}

theorem runs_next {f : Except ε α → Program Ans ε β} {r : Except ε β} :
    Runs sem (p.next f) s r s' ↔ ∃ r₁ s₁, Runs sem p s r₁ s₁ ∧ Runs sem (f r₁) s₁ r s' := by
  induction p generalizing s with
  | done r₀ =>
    refine ⟨fun h => ⟨r₀, s, ⟨rfl, rfl⟩, h⟩, ?_⟩
    rintro ⟨r₁, s₁, ⟨rfl, rfl⟩, h⟩
    exact h
  | call op k ih =>
    constructor
    · rintro ⟨a, s₁, hsem, h⟩
      obtain ⟨r₁, s₂, h₁, h₂⟩ := (ih a).mp h
      exact ⟨r₁, s₂, ⟨a, s₁, hsem, h₁⟩, h₂⟩
    · rintro ⟨r₁, s₂, ⟨a, s₁, hsem, h₁⟩, h₂⟩
      exact ⟨a, s₁, hsem, (ih a).mpr ⟨r₁, s₂, h₁, h₂⟩⟩

theorem runs_perform {op : Op} {a : Except ε (Ans op)} :
    Runs sem (perform op) s a s' ↔ sem s op a s' := by
  constructor
  · rintro ⟨a, s₁, hsem, rfl, rfl⟩
    exact hsem
  · exact fun hsem => ⟨a, s', hsem, rfl, rfl⟩

section Rules

variable {s₁ : σ} {a : α} {r : Except ε α}

theorem Runs.bind {f : α → Program Ans ε β} {r : Except ε β} (h : Runs sem p s (.ok a) s₁)
    (hf : Runs sem (f a) s₁ r s') : Runs sem (p >>= f) s r s' :=
  runs_next.mpr ⟨_, s₁, h, hf⟩

theorem Runs.catching {handle : ε → Program Ans ε α} (h : Runs sem p s (.ok a) s') :
    Runs sem (p.catching handle) s (.ok a) s' :=
  runs_next.mpr ⟨_, s', h, rfl, rfl⟩

theorem Runs.andFinally {c : Program Ans ε Unit} (h : Runs sem p s r s₁)
    (hc : Runs sem c s₁ (.ok ()) s') : Runs sem (p.andFinally c) s r s' :=
  runs_next.mpr ⟨_, s₁, h, runs_next.mpr ⟨_, s', hc, rfl, rfl⟩⟩

end Rules

theorem Runs.mono (hsem : ∀ s op a s', sem s op a s' → sem' s op a s') {r : Except ε α}
    (h : Runs sem p s r s') : Runs sem' p s r s' := by
  induction p generalizing s with
  | done r₀ => exact h
  | call op k ih =>
    obtain ⟨a, s₁, hcall, h⟩ := h
    exact ⟨a, s₁, hsem _ _ _ _ hcall, ih a h⟩

/-- `exec` finds an execution. -/
theorem runs_exec {answer : σ → (op : Op) → Except ε (Ans op) × σ}
    (hanswer : ∀ s op, sem s op (answer s op).1 (answer s op).2) :
    Runs sem p s (exec answer p s).1 (exec answer p s).2 := by
  induction p generalizing s with
  | done r => exact ⟨rfl, rfl⟩
  | call op k ih => exact ⟨_, _, hanswer s op, ih _⟩

/-- `execWhile` finds an execution if it comes to an end. -/
theorem runs_execWhile {check : σ → Op → Bool} {answer : σ → (op : Op) → Except ε (Ans op) × σ}
    (hanswer : ∀ s op, check s op = true → sem s op (answer s op).1 (answer s op).2)
    {r : Except ε α} (h : execWhile check answer p s = some (r, s')) : Runs sem p s r s' := by
  induction p generalizing s with
  | done r₀ =>
    obtain ⟨rfl, rfl⟩ := Prod.mk.inj (Option.some.inj h)
    exact ⟨rfl, rfl⟩
  | call op k ih =>
    obtain ⟨hcheck, hrest⟩ := Option.ite_none_right_eq_some.mp h
    exact ⟨_, _, hanswer s op hcheck, ih _ hrest⟩

/-! ### Weakest preconditions -/

/-- Every call meets its precondition, and `Q` holds of what the program ends with. -/
def wp (sem : Semantics Ans ε σ) (pre : σ → Op → Prop) :
    Program Ans ε α → (Except ε α → σ → Prop) → σ → Prop
  | done r, Q, s => Q r s
  | call op k, Q, s => pre s op ∧ ∀ a s', sem s op a s' → wp sem pre (k a) Q s'

variable {pre : σ → Op → Prop} {Q Q' : Except ε α → σ → Prop}

theorem wp_next {f : Except ε α → Program Ans ε β} {R : Except ε β → σ → Prop}
    (h : wp sem pre p (fun r s => wp sem pre (f r) R s) s) : wp sem pre (p.next f) R s := by
  induction p generalizing s with
  | done r => exact h
  | call op k ih => exact ⟨h.1, fun a s' hsem => ih a (h.2 a s' hsem)⟩

theorem wp_mono (hQ : ∀ r s, Q r s → Q' r s) (h : wp sem pre p Q s) : wp sem pre p Q' s := by
  induction p generalizing s with
  | done r => exact hQ r s h
  | call op k ih => exact ⟨h.1, fun a s' hsem => ih a (h.2 a s' hsem)⟩

theorem wp_bind {f : α → Program Ans ε β} {R : Except ε β → σ → Prop}
    (h : wp sem pre p Q s) (hok : ∀ a s, Q (.ok a) s → wp sem pre (f a) R s)
    (herr : ∀ e s, Q (.error e) s → R (.error e) s) : wp sem pre (p >>= f) R s := by
  refine wp_next (wp_mono (fun r s hr => ?_) h)
  cases r with
  | ok a => exact hok a s hr
  | error e => exact herr e s hr

theorem wp_catching {h : ε → Program Ans ε α} {R : Except ε α → σ → Prop}
    (hp : wp sem pre p Q s) (hok : ∀ a s, Q (.ok a) s → R (.ok a) s)
    (herr : ∀ e s, Q (.error e) s → wp sem pre (h e) R s) : wp sem pre (p.catching h) R s := by
  refine wp_next (wp_mono (fun r s hr => ?_) hp)
  cases r with
  | ok a => exact hok a s hr
  | error e => exact herr e s hr

theorem wp_andFinally {c : Program Ans ε Unit} {R : Except ε α → σ → Prop}
    (R₀ : Except ε α → Except ε Unit → σ → Prop) (hp : wp sem pre p Q s)
    (hc : ∀ r s, Q r s → wp sem pre c (R₀ r) s) (hok : ∀ r s, R₀ r (.ok ()) s → R r s)
    (herr : ∀ r e s, R₀ r (.error e) s → R (.error e) s) :
    wp sem pre (p.andFinally c) R s := by
  refine wp_next (wp_mono (fun r s hr => wp_next (wp_mono (fun r₁ s₁ hr₁ => ?_) (hc r s hr))) hp)
  cases r₁ with
  | ok u => exact hok r s₁ hr₁
  | error e => exact herr r e s₁ hr₁

/-- `R` holds behind a value, `E` behind an exception. -/
def Ends (R : α → σ → Prop) (E : σ → Prop) : Except ε α → σ → Prop
  | .ok a, s => R a s
  | .error _, s => E s

section Ends

variable {R : α → σ → Prop} {E : σ → Prop}

theorem ends_mono {R' : α → σ → Prop} (hR : ∀ a s, R a s → R' a s)
    (h : wp sem pre p (Ends R E) s) : wp sem pre p (Ends R' E) s := by
  refine wp_mono (fun r s hr => ?_) h
  cases r with
  | ok a => exact hR a s hr
  | error e => exact hr

theorem ends_bind {f : α → Program Ans ε β} {R' : β → σ → Prop}
    (h : wp sem pre p (Ends R E) s) (hf : ∀ a s, R a s → wp sem pre (f a) (Ends R' E) s) :
    wp sem pre (p >>= f) (Ends R' E) s :=
  wp_bind h hf fun _ _ he => he

theorem ends_catching {handle : ε → Program Ans ε α} (h : wp sem pre p (Ends R E) s)
    (hh : ∀ e s, E s → wp sem pre (handle e) (Ends R E) s) :
    wp sem pre (p.catching handle) (Ends R E) s :=
  wp_catching h (fun _ _ hr => hr) hh

/-- What is executed in the end keeps the state, or throws. -/
theorem ends_andFinally {c : Program Ans ε Unit} (h : wp sem pre p (Ends R E) s)
    (hc : ∀ s, wp sem pre c (Ends (fun _ s' => s' = s) E) s) :
    wp sem pre (p.andFinally c) (Ends R E) s := by
  refine wp_andFinally (fun r a s => match a with
    | .ok _ => Ends R E r s
    | .error _ => E s) h (fun r s hr => ?_) (fun r s hr => hr) fun r e s hr => hr
  refine wp_mono (fun a s' ha => ?_) (hc s)
  cases a with
  | ok u =>
    obtain rfl : s' = s := ha
    exact hr
  | error e => exact ha

end Ends

/-- **Soundness**: what a program ends with meets the postcondition. -/
theorem wp.sound {r : Except ε α} (h : wp sem pre p Q s) (hrun : Runs sem p s r s') : Q r s' := by
  induction p generalizing s with
  | done r₀ =>
    obtain ⟨rfl, rfl⟩ := hrun
    exact h
  | call op k ih =>
    obtain ⟨a, s₁, hsem, hrun⟩ := hrun
    exact ih a (h.2 a s₁ hsem) hrun

/-- A state that can do no more is as good. -/
theorem wp.of_evolve {evolve : σ → σ → Prop} (hsem : ∀ s t op a t', evolve s t → sem t op a t' →
    ∃ s', evolve s' t' ∧ sem s op a s') (hpre : ∀ s t op, evolve s t → pre s op → pre t op)
    (hQ : ∀ r s t, evolve s t → Q r s → Q r t) {t : σ} (h : wp sem pre p Q s) (hst : evolve s t) :
    wp sem pre p Q t := by
  induction p generalizing s t with
  | done r => exact hQ r s t hst h
  | call op k ih =>
    refine ⟨hpre s t op hst h.1, fun a t' hcall => ?_⟩
    obtain ⟨s', hst', hcall'⟩ := hsem s t op a t' hst hcall
    exact ih a (h.2 a s' hcall') hst'

/-- Calls behind steps of other threads, which the quiet operations do not notice. -/
def relying (evolve : σ → σ → Prop) (Quiet : Op → Prop) (sem : Semantics Ans ε σ) :
    Semantics Ans ε σ := fun s op a s' =>
  Quiet op ∧ (∃ r, a = .ok r) ∧ s' = s ∨ ¬ Quiet op ∧ ∃ s₁, evolve s s₁ ∧ sem s₁ op a s'

/-- A program that relies on what other threads do. -/
theorem wp.of_relying {evolve : σ → σ → Prop} {Quiet : Op → Prop} (hrefl : ∀ s, evolve s s)
    (htrans : ∀ s s₁ s₂, evolve s s₁ → evolve s₁ s₂ → evolve s s₂)
    (hpre : ∀ s t op, evolve s t → pre s op → pre t op)
    (hQ : ∀ r s t, evolve s t → Q r s → Q r t) {t : σ}
    (h : wp (relying evolve Quiet sem) pre p Q s) (hst : evolve s t) :
    wp (relying evolve Quiet sem) pre p Q t := by
  refine h.of_evolve (fun s t op a t' hst hcall => ?_) hpre hQ hst
  rcases hcall with ⟨hop, ha, rfl⟩ | ⟨hop, t₁, ht₁, hcall⟩
  · exact ⟨s, hst, .inl ⟨hop, ha, rfl⟩⟩
  · exact ⟨t', hrefl t', .inr ⟨hop, t₁, htrans s t t₁ hst ht₁, hcall⟩⟩

/-! ### Programs with some of the operations -/

/-- The program calls operations of `P` only. -/
def Only (P : Op → Prop) : Program Ans ε α → Prop
  | done _ => True
  | call op k => P op ∧ ∀ a, Only P (k a)

variable {P : Op → Prop}

theorem only_next {f : Except ε α → Program Ans ε β} (hp : p.Only P) (hf : ∀ r, (f r).Only P) :
    (p.next f).Only P := by
  induction p with
  | done r => exact hf r
  | call op k ih => exact ⟨hp.1, fun a => ih a (hp.2 a)⟩

theorem only_pure (a : α) : (pure a : Program Ans ε α).Only P := trivial

theorem only_raise (e : ε) : (raise e : Program Ans ε α).Only P := trivial

theorem only_perform {op : Op} (h : P op) : (perform op : Program Ans ε _).Only P :=
  ⟨h, fun _ => trivial⟩

theorem only_bind {f : α → Program Ans ε β} (hp : p.Only P) (hf : ∀ a, (f a).Only P) :
    (p >>= f).Only P := by
  refine only_next hp fun r => ?_
  cases r with
  | ok a => exact hf a
  | error e => trivial

theorem only_catching {h : ε → Program Ans ε α} (hp : p.Only P) (hh : ∀ e, (h e).Only P) :
    (p.catching h).Only P := by
  refine only_next hp fun r => ?_
  cases r with
  | ok a => trivial
  | error e => exact hh e

theorem only_andFinally {c : Program Ans ε Unit} (hp : p.Only P) (hc : c.Only P) :
    (p.andFinally c).Only P := by
  refine only_next hp fun r => only_next hc fun r₁ => ?_
  cases r₁ <;> trivial

theorem Only.mono {P' : Op → Prop} (hP : ∀ op, P op → P' op) (h : p.Only P) : p.Only P' := by
  induction p with
  | done r => trivial
  | call op k ih => exact ⟨hP op h.1, fun a => ih a (h.2 a)⟩

theorem only_true (p : Program Ans ε α) : p.Only fun _ => True := by
  induction p with
  | done r => trivial
  | call op k ih => exact ⟨trivial, ih⟩

/-- **A program keeps what its operations keep.** -/
theorem Only.wp {I : σ → Prop} (h : p.Only P) (hpre : ∀ s op, P op → I s → pre s op)
    (hkeep : ∀ s op a s', P op → I s → sem s op a s' → I s') (hs : I s) :
    Program.wp sem pre p (fun _ s => I s) s := by
  induction p generalizing s with
  | done r => exact hs
  | call op k ih =>
    exact ⟨hpre s op h.1 hs, fun a s' hsem => ih a (h.2 a) (hkeep s op a s' h.1 hs hsem)⟩

end Program

/-! ### Threads -/

open Program

/-- The world and the program that each thread is in. -/
structure State (κ σ : Type) {Op : Type} (Ans : Op → Type) (ε α : Type) where
  world : σ
  thread : κ → Option (Program Ans ε α)

/-- What a thread does next. `start i` is the start of the program `i`. -/
inductive Event (ι : Type) {Op : Type} (Ans : Op → Type) (ε α : Type)
  | start (i : ι)
  | call (op : Op) (a : Except ε (Ans op))
  | finish (r : Except ε α)

variable {κ ι : Type} [DecidableEq κ]

/-- **The steps of threads**: a thread without program starts one, a program calls its next
operation, or is over. `sem w` is the semantics of the operations that the thread `w` calls. -/
inductive Step (program : ι → Program Ans ε α) (sem : κ → Semantics Ans ε σ) :
    State κ σ Ans ε α → κ × Event ι Ans ε α → State κ σ Ans ε α → Prop
  | start {s w} (i : ι) (h : s.thread w = none) :
    Step program sem s (w, .start i)
      { s with thread := Function.update s.thread w (some (program i)) }
  | call {s w op k a world'} (h : s.thread w = some (.call op k)) (hsem : sem w s.world op a world') :
    Step program sem s (w, .call op a) ⟨world', Function.update s.thread w (some (k a))⟩
  | finish {s w r} (h : s.thread w = some (.done r)) :
    Step program sem s (w, .finish r) { s with thread := Function.update s.thread w none }

theorem Step.deterministic {program : ι → Program Ans ε α} {sem : κ → Semantics Ans ε σ}
    (hsem : ∀ w s op a s' s'', sem w s op a s' → sem w s op a s'' → s' = s'')
    {s s' s'' : State κ σ Ans ε α} {l : κ × Event ι Ans ε α} (h : Step program sem s l s')
    (h' : Step program sem s l s'') : s' = s'' := by
  cases h with
  | start i h =>
    cases h'
    rfl
  | call h hcall =>
    cases h' with
    | call h' hcall' =>
      obtain rfl := Program.call.inj (Option.some.inj (h.symm.trans h')) |>.2 |> eq_of_heq
      rw [hsem _ _ _ _ _ _ hcall hcall']
  | finish h =>
    cases h'
    rfl

theorem Step.restrict {program : ι → Program Ans ε α} {sem : κ → Semantics Ans ε σ}
    {ok : κ → σ → (op : Op) → Except ε (Ans op) → Prop} {s s' : State κ σ Ans ε α}
    {l : κ × Event ι Ans ε α} (h : Step program sem s l s')
    (hok : ∀ w op a, l = (w, .call op a) → ok w s.world op a) :
    Step program (fun w s op a s' => sem w s op a s' ∧ ok w s op a) s l s' := by
  cases h with
  | start i h => exact .start i h
  | call h hsem => exact .call h ⟨hsem, hok _ _ _ rfl⟩
  | finish h => exact .finish h

section Feed

variable {answer : σ → (op : Op) → Except ε (Ans op)}
  {effect : σ → (op : Op) → Except ε (Ans op) → Option σ}

/-- The next `n` calls of a program, with given answers: the events, the rest of the program, and
the state behind them. -/
def feed (ι : Type) (answer : σ → (op : Op) → Except ε (Ans op))
    (effect : σ → (op : Op) → Except ε (Ans op) → Option σ) :
    ℕ → Program Ans ε α → σ → Option (List (Event ι Ans ε α) × Program Ans ε α × σ)
  | 0, p, s => some ([], p, s)
  | n + 1, .call op k, s => do
    let s' ← effect s op (answer s op)
    let (es, p, s'') ← feed ι answer effect n (k (answer s op)) s'
    some (.call op (answer s op) :: es, p, s'')
  | _ + 1, .done _, _ => none

/-- Calls with given answers are a run. -/
theorem run_feed {program : ι → Program Ans ε α} {sem : κ → Semantics Ans ε σ} {w : κ}
    (hsem : ∀ s op a s', effect s op a = some s' → sem w s op a s') {n : ℕ} {p p' : Program Ans ε α}
    {s s' : σ} {es : List (Event ι Ans ε α)} {thread : κ → Option (Program Ans ε α)}
    (h : feed ι answer effect n p s = some (es, p', s')) (hp : thread w = some p) :
    Run (Step program sem) ⟨s, thread⟩ (es.map fun e => (w, e))
      ⟨s', Function.update thread w (some p')⟩ := by
  induction n generalizing p s es thread with
  | zero =>
    obtain ⟨rfl, hrest⟩ := Prod.mk.inj (Option.some.inj h)
    obtain ⟨rfl, rfl⟩ := Prod.mk.inj hrest
    rw [← hp, Function.update_eq_self]
    exact .nil _
  | succ n ih =>
    cases p with
    | done r => cases h
    | call op k =>
      obtain ⟨s₁, heffect, hbind⟩ := Option.bind_eq_some_iff.mp h
      obtain ⟨⟨es₁, p₁, s₂⟩, hfeed, hsome⟩ := Option.bind_eq_some_iff.mp hbind
      obtain ⟨rfl, hrest⟩ := Prod.mk.inj (Option.some.inj hsome)
      obtain ⟨rfl, rfl⟩ := Prod.mk.inj hrest
      have hrun : Run (Step program sem)
          ⟨s₁, Function.update thread w (some (k (answer s op)))⟩ _ _ :=
        ih hfeed (Function.update_self ..)
      rw [Function.update_idem] at hrun
      exact .cons (.call hp (hsem _ _ _ _ heffect)) hrun

end Feed

section Views

variable {τ : Type} {program : ι → Program Ans ε α} {sem : κ → Semantics Ans ε σ}
  {view : σ → κ → τ} {vsem : Semantics Ans ε τ} {pre : τ → Op → Prop}
  {post : Except ε α → τ → Prop} {idle : τ → Prop} {s s' : State κ σ Ans ε α} {w : κ}

/-- A thread meets its specification as far as it can see: its view is `idle` between programs, and
the rest of its program leads to `post`. -/
def Meets (vsem : Semantics Ans ε τ) (pre : τ → Op → Prop) (post : Except ε α → τ → Prop)
    (idle : τ → Prop) (v : τ) : Option (Program Ans ε α) → Prop
  | none => idle v
  | some p => wp vsem pre p post v

/-- Every thread meets its specification. -/
def Safe (view : σ → κ → τ) (vsem : Semantics Ans ε τ) (pre : τ → Op → Prop)
    (post : Except ε α → τ → Prop) (idle : τ → Prop) (s : State κ σ Ans ε α) : Prop :=
  ∀ w, Meets vsem pre post idle (view s.world w) (s.thread w)

/-- An operation is called with its precondition. -/
theorem Safe.pre_call {op : Op} {a : Except ε (Ans op)} (hs : Safe view vsem pre post idle s)
    (h : Step program sem s (w, .call op a) s') : pre (view s.world w) op := by
  cases h with
  | call h _ =>
    have hw := hs w
    rw [h] at hw
    exact hw.1

omit [DecidableEq κ] in
/-- A program is over with its postcondition. -/
theorem Safe.post_done {r : Except ε α} (hs : Safe view vsem pre post idle s)
    (h : s.thread w = some (.done r)) : post r (view s.world w) := by
  have hw := hs w
  rwa [h] at hw

/-- **Verified one at a time, threads are safe together**: what a call does is what the semantics of
the views says of the view of its thread, and leads the views of the others to one that is as
good. -/
theorem Safe.step (I : σ → Prop) (evolve : τ → τ → Prop)
    (hown : ∀ w s op a s', I s → pre (view s w) op → sem w s op a s' →
      vsem (view s w) op a (view s' w))
    (hother : ∀ w w' s op a s', I s → pre (view s w) op → sem w s op a s' → w' ≠ w →
      evolve (view s w') (view s' w'))
    (hevolve : ∀ v v' o, evolve v v' → Meets vsem pre post idle v o → Meets vsem pre post idle v' o)
    (hstart : ∀ i v, idle v → wp vsem pre (program i) post v)
    (hfinish : ∀ r v, post r v → idle v) {l : κ × Event ι Ans ε α} (hI : I s.world)
    (hs : Safe view vsem pre post idle s) (h : Step program sem s l s') :
    Safe view vsem pre post idle s' := by
  intro w'
  have hw' := hs w'
  obtain ⟨w, e⟩ := l
  cases h with
  | start i h =>
    rcases eq_or_ne w' w with rfl | hne
    · rw [h] at hw'
      simpa only [Function.update_self, Meets] using hstart i _ hw'
    · simpa only [Function.update_of_ne hne] using hw'
  | call h hsem =>
    have hpre := hs.pre_call (.call h hsem : Step program sem s _ _)
    rcases eq_or_ne w' w with rfl | hne
    · rw [h] at hw'
      simpa only [Function.update_self, Meets] using hw'.2 _ _ (hown _ _ _ _ _ hI hpre hsem)
    · simpa only [Function.update_of_ne hne] using
        hevolve _ _ _ (hother _ _ _ _ _ _ hI hpre hsem hne) hw'
  | finish h =>
    rcases eq_or_ne w' w with rfl | hne
    · rw [h] at hw'
      simpa only [Function.update_self, Meets] using hfinish _ _ hw'
    · simpa only [Function.update_of_ne hne] using hw'

/-- **Rely and guarantee**: threads that rely on what every one of them guarantees are safe. -/
theorem Safe.step_relying {Quiet : Op → Prop} (I : σ → Prop) (evolve : τ → τ → Prop)
    (hrefl : ∀ v, evolve v v) (htrans : ∀ v v₁ v₂, evolve v v₁ → evolve v₁ v₂ → evolve v v₂)
    (hquiet : ∀ w s op a s', Quiet op → sem w s op a s' → (∃ r, a = .ok r) ∧ view s' w = view s w)
    (hown : ∀ w s op a s', I s → pre (view s w) op → sem w s op a s' →
      vsem (view s w) op a (view s' w))
    (hguarantee : ∀ w w' s op a s', I s → pre (view s w) op → sem w s op a s' →
      evolve (view s w') (view s' w'))
    (hpre : ∀ v v' op, evolve v v' → pre v op → pre v' op)
    (hpost : ∀ r v v', evolve v v' → post r v → post r v')
    (hidle : ∀ v v', evolve v v' → idle v → idle v')
    (hstart : ∀ i v, idle v → wp (relying evolve Quiet vsem) pre (program i) post v)
    (hfinish : ∀ r v, post r v → idle v) {l : κ × Event ι Ans ε α} (hI : I s.world)
    (hs : Safe view (relying evolve Quiet vsem) pre post idle s) (h : Step program sem s l s') :
    Safe view (relying evolve Quiet vsem) pre post idle s' := by
  refine Safe.step I evolve (fun w s op a s' hI hop hcall => ?_)
    (fun w w' s op a s' hI hop hcall _ => hguarantee w w' s op a s' hI hop hcall)
    (fun v v' o hv ho => ?_) hstart hfinish hI hs h
  · by_cases hq : Quiet op
    · exact .inl ⟨hq, hquiet w s op a s' hq hcall⟩
    · exact .inr ⟨hq, _, hrefl _, hown w s op a s' hI hop hcall⟩
  · cases o with
    | none => exact hidle v v' hv ho
    | some p => exact wp.of_relying hrefl htrans hpre hpost ho hv

/-- What holds of a result when its program is over holds at the end of the run. -/
theorem Safe.finished {P : State κ σ Ans ε α → Prop} {evolve : τ → τ → Prop}
    (hP : ∀ s l s', P s → Step program sem s l s' → P s')
    (hsafe : ∀ s, P s → Safe view vsem pre post idle s)
    (hevolve : ∀ s l s', P s → Step program sem s l s' → ∀ w, evolve (view s.world w)
      (view s'.world w)) (hpost : ∀ r v v', evolve v v' → post r v → post r v')
    {ls : List (κ × Event ι Ans ε α)} (hrun : Run (Step program sem) s ls s') (hs : P s)
    {r : Except ε α} (h : (w, .finish r) ∈ ls) : post r (view s'.world w) := by
  refine hrun.labels (R := fun l s => ∀ r, l.2 = .finish r → post r (view s.world l.1)) hP
    (fun s l s' hs hstep r hl => ?_) (fun s l s' l' hs hstep hl r hr => ?_) hs _ h r rfl
  · obtain ⟨w, e⟩ := l
    obtain rfl : e = .finish r := hl
    cases hstep with
    | finish h => exact (hsafe s hs).post_done h
  · exact hpost r _ _ (hevolve s l s' hs hstep l'.1) (hl r hr)

end Views

/-! ### Schedules -/

section Schedules

variable {answer : κ → σ → (op : Op) → Except ε (Ans op) × σ} {check : κ → σ → Op → Bool}
  {program : ι → Program Ans ε α} {sem : κ → Semantics Ans ε σ} {i : ι} {s s' : State κ σ Ans ε α}

/-- The next step of a thread, as long as its call meets a check. A thread without program starts
the program `i`. -/
def State.next (program : ι → Program Ans ε α) (check : κ → σ → Op → Bool)
    (answer : κ → σ → (op : Op) → Except ε (Ans op) × σ) (i : ι) (s : State κ σ Ans ε α) (w : κ) :
    Option ((κ × Event ι Ans ε α) × State κ σ Ans ε α) :=
  match s.thread w with
  | none => some ((w, .start i),
      { s with thread := Function.update s.thread w (some (program i)) })
  | some (.call op k) =>
    if check w s.world op then
      some ((w, .call op (answer w s.world op).1), ⟨(answer w s.world op).2,
        Function.update s.thread w (some (k (answer w s.world op).1))⟩)
    else none
  | some (.done r) => some ((w, .finish r), { s with thread := Function.update s.thread w none })

/-- The threads take turns. -/
def State.schedule (program : ι → Program Ans ε α) (check : κ → σ → Op → Bool)
    (answer : κ → σ → (op : Op) → Except ε (Ans op) × σ) (i : ι) :
    List κ → State κ σ Ans ε α → Option (List (κ × Event ι Ans ε α) × State κ σ Ans ε α)
  | [], s => some ([], s)
  | w :: ws, s => do
    let (l, s') ← s.next program check answer i w
    let (ls, s'') ← schedule program check answer i ws s'
    some (l :: ls, s'')

theorem step_next (hsem : ∀ w s op, check w s op = true → sem w s op (answer w s op).1
      (answer w s op).2) {w : κ} {l : κ × Event ι Ans ε α}
    (h : s.next program check answer i w = some (l, s')) : Step program sem s l s' := by
  unfold State.next at h
  split at h
  · rename_i hw
    obtain ⟨rfl, rfl⟩ := Prod.mk.inj (Option.some.inj h)
    exact .start i hw
  · rename_i op k hw
    obtain ⟨hcheck, h⟩ := Option.ite_none_right_eq_some.mp h
    obtain ⟨rfl, rfl⟩ := Prod.mk.inj (Option.some.inj h)
    exact .call hw (hsem w s.world op hcheck)
  · rename_i r hw
    obtain ⟨rfl, rfl⟩ := Prod.mk.inj (Option.some.inj h)
    exact .finish hw

theorem run_schedule (hsem : ∀ w s op, check w s op = true → sem w s op (answer w s op).1
      (answer w s op).2) {ws : List κ} {ls : List (κ × Event ι Ans ε α)}
    (h : s.schedule program check answer i ws = some (ls, s')) :
    Run (Step program sem) s ls s' := by
  induction ws generalizing s ls with
  | nil =>
    obtain ⟨rfl, rfl⟩ := Prod.mk.inj (Option.some.inj h)
    exact .nil s
  | cons w ws ih =>
    obtain ⟨⟨l, s₁⟩, hnext, hbind⟩ := Option.bind_eq_some_iff.mp h
    obtain ⟨⟨ls₁, s₂⟩, hrest, hsome⟩ := Option.bind_eq_some_iff.mp hbind
    obtain ⟨rfl, rfl⟩ := Prod.mk.inj (Option.some.inj hsome)
    exact .cons (step_next hsem hnext) (ih hrest)

end Schedules

end Mlmq.Lib.Programs
