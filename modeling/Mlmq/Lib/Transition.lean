import Mathlib

/-! # Runs of a labelled transition system

`Run step s is s'` is a run from `s` to `s'` whose steps have the labels `is`, and `Reachable init
step` are the states at the ends of the runs from initial states. What every step preserves holds at
the end of a run (`Run.invariant`, `Reachable.invariant`); a measure that grows or shrinks with each
step bounds the length of the run (`Run.length_le`, `Run.length_add_le`).

`Throughout step P s is` says that `P` holds in every state of the run of `is`. Where a condition on
a step decides whether `P` still holds after it, `P` holds throughout a run iff all of its steps
meet the condition (`Run.throughout_iff`). -/

namespace Mlmq.Lib.Transition

variable {σ ι : Type*} {step : σ → ι → σ → Prop} {s s' s'' : σ} {is js : List ι}

/-- Runs of `step`. -/
inductive Run (step : σ → ι → σ → Prop) : σ → List ι → σ → Prop
  | nil (s : σ) : Run step s [] s
  | cons {s s' s'' : σ} {i : ι} {is : List ι} (h : step s i s') (t : Run step s' is s'') :
    Run step s (i :: is) s''

/-- The states at the ends of the runs from initial states. -/
def Reachable (init : σ → Prop) (step : σ → ι → σ → Prop) (s : σ) : Prop :=
  ∃ s₀ is, init s₀ ∧ Run step s₀ is s

theorem Run.single {i : ι} (h : step s i s') : Run step s [i] s' := .cons h (.nil s')

theorem Run.append (h : Run step s is s') (t : Run step s' js s'') :
    Run step s (is ++ js) s'' := by
  induction h with
  | nil s => exact t
  | cons h _ ih => exact .cons h (ih t)

/-- **What every step preserves holds at the end of a run.** -/
theorem Run.invariant {P : σ → Prop} (hP : ∀ s i s', P s → step s i s' → P s')
    (h : Run step s is s') (hs : P s) : P s' := by
  induction h with
  | nil s => exact hs
  | cons h _ ih => exact ih (hP _ _ _ hs h)

/-- What holds of a label behind its step, and is kept by the others, holds at the end of a run. -/
theorem Run.labels {P : σ → Prop} {R : ι → σ → Prop} (hP : ∀ s i s', P s → step s i s' → P s')
    (hnew : ∀ s i s', P s → step s i s' → R i s')
    (hkeep : ∀ s i s' j, P s → step s i s' → R j s → R j s') (h : Run step s is s') (hs : P s) :
    ∀ i ∈ is, R i s' := by
  induction h with
  | nil s => exact fun i hi => absurd hi List.not_mem_nil
  | @cons s s₁ s' i is h t ih =>
    have hs₁ := hP _ _ _ hs h
    have hend : P s' ∧ R i s' := by
      refine t.invariant (P := fun s => P s ∧ R i s) (fun s j s' hs hstep => ?_)
        ⟨hs₁, hnew _ _ _ hs h⟩
      exact ⟨hP _ _ _ hs.1 hstep, hkeep _ _ _ i hs.1 hstep hs.2⟩
    exact List.forall_mem_cons.mpr ⟨hend.2, ih hs₁⟩

/-- A run of the steps that satisfy a condition, which may also speak about a known invariant. -/
theorem Run.mono {P : σ → Prop} {step' : σ → ι → σ → Prop}
    (hP : ∀ s i s', P s → step s i s' → P s')
    (hstep : ∀ s i s', P s → step s i s' → step' s i s') (h : Run step s is s') (hs : P s) :
    Run step' s is s' := by
  induction h with
  | nil s => exact .nil s
  | cons h _ ih => exact .cons (hstep _ _ _ hs h) (ih (hP _ _ _ hs h))

/-- A measure that grows with every step bounds the length of the run. -/
theorem Run.length_le {P : σ → Prop} {f : σ → ℕ} (hP : ∀ s i s', P s → step s i s' → P s')
    (hf : ∀ s i s', P s → step s i s' → f s + 1 ≤ f s') (h : Run step s is s') (hs : P s) :
    f s + is.length ≤ f s' := by
  induction h with
  | nil s => exact le_rfl
  | cons h _ ih =>
    have h1 := hf _ _ _ hs h
    have h2 := ih (hP _ _ _ hs h)
    rw [List.length_cons]
    omega

/-- A measure that shrinks with every step bounds the length of the run. -/
theorem Run.length_add_le {P : σ → Prop} {f : σ → ℕ} (hP : ∀ s i s', P s → step s i s' → P s')
    (hf : ∀ s i s', P s → step s i s' → f s' + 1 ≤ f s) (h : Run step s is s') (hs : P s) :
    is.length + f s' ≤ f s := by
  induction h with
  | nil s => exact (Nat.zero_add _).le
  | cons h _ ih =>
    have h1 := hf _ _ _ hs h
    have h2 := ih (hP _ _ _ hs h)
    rw [List.length_cons]
    omega

/-- What holds at the end, and before a step if behind it, holds behind every step of a run. -/
theorem Run.of_last {P Q : σ → Prop} (hP : ∀ s i s', P s → step s i s' → P s')
    (hQ : ∀ s i s', P s → step s i s' → Q s' → Q s) (h : Run step s is s') (hs : P s)
    (hs' : Q s') : Q s ∧ Run (fun s i s' => step s i s' ∧ Q s') s is s' := by
  induction h with
  | nil s => exact ⟨hs', .nil s⟩
  | cons h _ ih =>
    obtain ⟨hmid, hrun⟩ := ih (hP _ _ _ hs h) hs'
    exact ⟨hQ _ _ _ hs h hmid, .cons ⟨h, hmid⟩ hrun⟩

/-- **A simulation of a run.** Each step is matched by some steps of the other system, whose labels
it shows; `R` may speak about all of them. -/
theorem Run.simulate {τ κ : Type*} {step' : τ → κ → τ → Prop} {Shows : ι → List κ → Prop}
    {R : σ → List κ → τ → Prop}
    (hstep : ∀ s i s' js t, R s js t → step s i s' →
      ∃ ks t', Shows i ks ∧ Run step' t ks t' ∧ R s' (js ++ ks) t')
    (h : Run step s is s') {js : List κ} {t : τ} (hs : R s js t) :
    ∃ kss t', List.Forall₂ Shows is kss ∧ Run step' t kss.flatten t' ∧
      R s' (js ++ kss.flatten) t' := by
  induction h generalizing js t with
  | nil s => exact ⟨[], t, .nil, .nil t, by rwa [List.flatten_nil, List.append_nil]⟩
  | cons h _ ih =>
    obtain ⟨ks, t₁, hshows, hrun, hR⟩ := hstep _ _ _ _ _ hs h
    obtain ⟨kss, t', hall, hrest, hR'⟩ := ih hR
    refine ⟨ks :: kss, t', .cons hshows hall, ?_, ?_⟩
    · rw [List.flatten_cons]
      exact hrun.append hrest
    · rwa [List.flatten_cons, ← List.append_assoc]

/-- `P` holds in every state of a run. -/
def Throughout (step : σ → ι → σ → Prop) (P : σ → Prop) (s : σ) (is : List ι) : Prop :=
  ∀ js s', js <+: is → Run step s js s' → P s'

/-- The steps that meet a condition. -/
def Restrict (step : σ → ι → σ → Prop) (ok : σ → ι → Prop) (s : σ) (i : ι) (s' : σ) : Prop :=
  step s i s' ∧ ok s i

/-- The state after some labels, if each of them can happen and satisfies a condition. -/
def followIf (next : σ → ι → Option σ) (ok : σ → ι → Prop) [∀ s i, Decidable (ok s i)] :
    σ → List ι → Option σ
  | s, [] => some s
  | s, i :: is => if ok s i then (next s i).bind fun s' => followIf next ok s' is else none

theorem run_of_followIf {next : σ → ι → Option σ} {ok : σ → ι → Prop}
    [∀ s i, Decidable (ok s i)] (h : followIf next ok s is = some s') :
    Run (Restrict (fun s i s' => next s i = some s') ok) s is s' := by
  induction is generalizing s with
  | nil =>
    obtain rfl := Option.some.inj h
    exact .nil s
  | cons i is ih =>
    unfold followIf at h
    split_ifs at h with hok
    obtain ⟨s₁, hnext, h⟩ := Option.bind_eq_some_iff.mp h
    exact .cons ⟨hnext, hok⟩ (ih h)

theorem Run.of_restrict {ok : σ → ι → Prop} (h : Run (Restrict step ok) s is s') :
    Run step s is s' := by
  induction h with
  | nil s => exact .nil s
  | cons h _ ih => exact .cons h.1 ih

/-- A condition on labels. -/
theorem run_restrict_iff {ok : ι → Prop} :
    Run (Restrict step fun _ i => ok i) s is s' ↔ Run step s is s' ∧ ∀ i ∈ is, ok i := by
  constructor
  · intro h
    refine ⟨h.of_restrict, ?_⟩
    induction h with
    | nil s => exact fun i hi => absurd hi List.not_mem_nil
    | cons h _ ih => exact List.forall_mem_cons.mpr ⟨h.2, ih⟩
  · rintro ⟨h, hok⟩
    induction h with
    | nil s => exact .nil s
    | cons h _ ih =>
      obtain ⟨hi, his⟩ := List.forall_mem_cons.mp hok
      exact .cons ⟨h, hi⟩ (ih his)

/-- **`P` holds throughout a run iff every step meets the condition** that decides whether `P` holds
after it. -/
theorem Run.throughout_iff {I P : σ → Prop} {ok : σ → ι → Prop}
    (hdet : ∀ s i s' s'', step s i s' → step s i s'' → s' = s'')
    (hI : ∀ s i s', I s → step s i s' → I s')
    (hok : ∀ s i s', I s → P s → step s i s' → (P s' ↔ ok s i))
    (h : Run step s is s') (hs : I s) (hP : P s) :
    Throughout step P s is ↔ Run (Restrict step ok) s is s' := by
  induction h with
  | nil s =>
    refine ⟨fun _ => .nil s, fun _ js s' hjs hrun => ?_⟩
    obtain rfl := List.prefix_nil.mp hjs
    cases hrun
    exact hP
  | @cons s s₁ s' i is h t ih =>
    have hs₁ := hI _ _ _ hs h
    constructor
    · intro hall
      have hP₁ : P s₁ := hall [i] s₁ ⟨is, rfl⟩ (.single h)
      refine .cons ⟨h, (hok _ _ _ hs hP h).mp hP₁⟩ ((ih hs₁ hP₁).mp ?_)
      exact fun js s'' hjs hrun => hall (i :: js) s'' (List.cons_prefix_cons.mpr ⟨rfl, hjs⟩)
        (.cons h hrun)
    · intro hall js s'' hjs hrun
      cases hall with
      | @cons _ t₁ _ _ _ hstep hrest =>
        obtain rfl := hdet _ _ _ _ h hstep.1
        have hP₁ : P s₁ := (hok _ _ _ hs hP h).mpr hstep.2
        cases hrun with
        | nil => exact hP
        | @cons _ t₂ _ j js h' t' =>
          obtain ⟨rfl, hpre⟩ := List.cons_prefix_cons.mp hjs
          obtain rfl := hdet _ _ _ _ h h'
          exact (ih hs₁ hP₁).mpr hrest js s'' hpre t'

variable {init : σ → Prop}

theorem Reachable.of_init (h : init s) : Reachable init step s := ⟨s, [], h, .nil s⟩

theorem Reachable.next {i : ι} (hs : Reachable init step s) (h : step s i s') :
    Reachable init step s' := by
  obtain ⟨s₀, is, h₀, run⟩ := hs
  exact ⟨s₀, is ++ [i], h₀, run.append (.single h)⟩

/-- **What holds initially and is preserved by every step holds in every reachable state.** -/
theorem Reachable.invariant {P : σ → Prop} (h₀ : ∀ s, init s → P s)
    (hP : ∀ s i s', P s → step s i s' → P s') (h : Reachable init step s) : P s := by
  obtain ⟨s₀, is, hs₀, run⟩ := h
  exact run.invariant hP (h₀ s₀ hs₀)

end Mlmq.Lib.Transition
