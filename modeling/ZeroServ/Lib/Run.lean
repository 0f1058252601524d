import Mathlib.Logic.Basic

/-!
# Runs of a partial step function

A system is a step function `σ → ε → Option σ`: the state an event leads to, or `none` where the event is not
possible. A run is a list of events from a state. `AllStates P` says that `P` holds of every state a run reaches,
`AllSteps C` that every step it takes meets `C`, a relation of the state before, the event and the state after. The
invariant rules carry a property of one step to whole runs; a condition on the steps of a run (`C`) may take part in
them. The refinement rule does so for a relation of two systems.
-/

namespace Run

variable {σ ε : Type*} (step : σ → ε → Option σ)

/-- The state a run ends in, `none` when one of its events is not possible where it stands. -/
def exec : σ → List ε → Option σ
  | s, [] => some s
  | s, e :: es => (step s e).bind fun s' => exec s' es

/-- `P` holds of every state the run reaches, the first one included. -/
def AllStates (P : σ → Prop) : σ → List ε → Prop
  | s, [] => P s
  | s, e :: es => P s ∧ ∀ s', step s e = some s' → AllStates P s' es

/-- Every step the run takes meets `C`. -/
def AllSteps (C : σ → ε → σ → Prop) : σ → List ε → Prop
  | _, [] => True
  | s, e :: es => ∀ s', step s e = some s' → C s e s' ∧ AllSteps C s' es

/-- Every event of the run meets `C` where it stands, possible or not, up to the first one that is not. -/
def AllEvents (C : σ → ε → Prop) : σ → List ε → Prop
  | _, [] => True
  | s, e :: es => C s e ∧ ∀ s', step s e = some s' → AllEvents C s' es

/-- The states a run goes through after its first one, up to where an event is not possible. -/
def trace : σ → List ε → List σ
  | _, [] => []
  | s, e :: es =>
    match step s e with
    | none => []
    | some s' => s' :: trace s' es

variable {step}

@[simp] theorem exec_nil (s : σ) : exec step s [] = some s := rfl

theorem exec_cons (s : σ) (e : ε) (es : List ε) :
    exec step s (e :: es) = (step s e).bind fun s' => exec step s' es := rfl

/-- A run of two parts goes through the state its first part ends in. -/
theorem exec_append (s : σ) (es fs : List ε) :
    exec step s (es ++ fs) = (exec step s es).bind fun s' => exec step s' fs := by
  induction es generalizing s with
  | nil => rfl
  | cons e es ih =>
    simp only [List.cons_append, exec_cons]
    cases step s e with
    | none => rfl
    | some s' => exact ih s'

theorem trace_cons_some {s s' : σ} {e : ε} (h : step s e = some s') (es : List ε) :
    trace step s (e :: es) = s' :: trace step s' es := by
  simp only [trace, h]

theorem trace_cons_none {s : σ} {e : ε} (h : step s e = none) (es : List ε) : trace step s (e :: es) = [] := by
  simp only [trace, h]

theorem AllStates.head {P : σ → Prop} {s : σ} {es : List ε} (h : AllStates step P s es) : P s := by
  cases es with
  | nil => exact h
  | cons e es => exact h.1

/-- What holds of every state of a run holds of its last one. -/
theorem AllStates.last {P : σ → Prop} {s s' : σ} {es : List ε} (h : AllStates step P s es)
    (hr : exec step s es = some s') : P s' := by
  induction es generalizing s with
  | nil =>
    simp only [exec_nil, Option.some.injEq] at hr
    exact hr ▸ h
  | cons e es ih =>
    rw [exec_cons, Option.bind_eq_some_iff] at hr
    obtain ⟨s₁, hs, hr⟩ := hr
    exact ih (h.2 s₁ hs) hr

/-- What holds of every state of a run of two parts holds of those of both. -/
theorem AllStates.of_append {P : σ → Prop} {s : σ} {es fs : List ε} (h : AllStates step P s (es ++ fs)) :
    AllStates step P s es ∧ ∀ s', exec step s es = some s' → AllStates step P s' fs := by
  induction es generalizing s with
  | nil =>
    refine ⟨h.head, fun s' hr => ?_⟩
    obtain rfl := Option.some.inj hr
    exact h
  | cons e es ih =>
    refine ⟨⟨h.1, fun s' hs => (ih (h.2 s' hs)).1⟩, fun s' hr => ?_⟩
    rw [exec_cons, Option.bind_eq_some_iff] at hr
    obtain ⟨s₁, hs, hr⟩ := hr
    exact (ih (h.2 s₁ hs)).2 s' hr

theorem AllSteps.mono {C D : σ → ε → σ → Prop} (hCD : ∀ s e s', C s e s' → D s e s') {s : σ} {es : List ε}
    (h : AllSteps step C s es) : AllSteps step D s es := by
  induction es generalizing s with
  | nil => trivial
  | cons e es ih => exact fun s' hs => ⟨hCD _ _ _ (h s' hs).1, ih (h s' hs).2⟩

/-- What every step meets, the steps of a run meet. -/
theorem AllSteps.of_forall {C : σ → ε → σ → Prop} (hC : ∀ s e s', C s e s') (s : σ) (es : List ε) :
    AllSteps step C s es := by
  induction es generalizing s with
  | nil => trivial
  | cons e es ih => exact fun s' _ => ⟨hC s e s', ih s'⟩

theorem AllSteps.and {C D : σ → ε → σ → Prop} {s : σ} {es : List ε} (h : AllSteps step C s es)
    (h' : AllSteps step D s es) :
    AllSteps step (fun s e s' => C s e s' ∧ D s e s') s es := by
  induction es generalizing s with
  | nil => trivial
  | cons e es ih => exact fun s' hs => ⟨⟨(h s' hs).1, (h' s' hs).1⟩, ih (h s' hs).2 (h' s' hs).2⟩

/-- What the events of a run meet, its steps meet. -/
theorem AllEvents.allSteps {C : σ → ε → Prop} {s : σ} {es : List ε} (h : AllEvents step C s es) :
    AllSteps step (fun s e _ => C s e) s es := by
  induction es generalizing s with
  | nil => trivial
  | cons e es ih => exact fun s' hs => ⟨h.1, ih (h.2 s' hs)⟩

/-- What every step of a run meets, its last step meets. -/
theorem AllSteps.last {C : σ → ε → σ → Prop} {s s₁ s₂ : σ} {es : List ε} {e : ε}
    (h : AllSteps step C s (es ++ [e])) (hr : exec step s es = some s₁) (hs : step s₁ e = some s₂) : C s₁ e s₂ := by
  induction es generalizing s with
  | nil =>
    simp only [exec_nil, Option.some.injEq] at hr
    subst hr
    exact (h s₂ hs).1
  | cons f es ih =>
    rw [exec_cons, Option.bind_eq_some_iff] at hr
    obtain ⟨s', hf, hr⟩ := hr
    exact ih (h s' hf).2 hr

/-- The invariant rule for steps: in a run whose steps all meet `C`, an invariant that such steps keep gives, at each
step, whatever it gives together with `C`. -/
theorem AllSteps.of_invariant {I : σ → Prop} {C D : σ → ε → σ → Prop} {s : σ} {es : List ε} (h₀ : I s)
    (hstep : ∀ s e s', I s → step s e = some s' → C s e s' → I s')
    (hD : ∀ s e s', I s → step s e = some s' → C s e s' → D s e s') (h : AllSteps step C s es) :
    AllSteps step D s es := by
  induction es generalizing s with
  | nil => trivial
  | cons e es ih =>
    intro s' hs
    obtain ⟨hc, hr⟩ := h s' hs
    exact ⟨hD s e s' h₀ hs hc, ih (hstep s e s' h₀ hs hc) hr⟩

/-- The invariant rule for states: in a run whose steps all meet `C`, an invariant that such steps keep holds of
every state. -/
theorem AllStates.of_invariant {I : σ → Prop} {C : σ → ε → σ → Prop} {s : σ} {es : List ε} (h₀ : I s)
    (hstep : ∀ s e s', I s → step s e = some s' → C s e s' → I s') (h : AllSteps step C s es) :
    AllStates step I s es := by
  induction es generalizing s with
  | nil => exact h₀
  | cons e es ih =>
    refine ⟨h₀, fun s' hs => ?_⟩
    obtain ⟨hc, hr⟩ := h s' hs
    exact ih (hstep s e s' h₀ hs hc) hr

/-- The invariant rule without a condition on the steps. -/
theorem AllStates.of_step {I : σ → Prop} {s : σ} (h₀ : I s) (hstep : ∀ s e s', I s → step s e = some s' → I s')
    (es : List ε) :
    AllStates step I s es := by
  induction es generalizing s with
  | nil => exact h₀
  | cons e es ih => exact ⟨h₀, fun s' hs => ih (hstep s e s' h₀ hs)⟩

/-- Where an invariant makes every event possible and is kept, every run comes to its end. -/
theorem exec_of_progress {I : σ → Prop} {s : σ} (h₀ : I s) (hstep : ∀ s e, I s → ∃ s', step s e = some s' ∧ I s')
    (es : List ε) :
    ∃ s', exec step s es = some s' ∧ I s' := by
  induction es generalizing s with
  | nil => exact ⟨s, rfl, h₀⟩
  | cons e es ih =>
    obtain ⟨s₁, hs, h₁⟩ := hstep s e h₀
    obtain ⟨s', hr, h'⟩ := ih h₁
    refine ⟨s', ?_, h'⟩
    rw [exec_cons, hs]
    exact hr

theorem AllStates.and {P Q : σ → Prop} {s : σ} {es : List ε} (h : AllStates step P s es) (h' : AllStates step Q s es) :
    AllStates step (fun s => P s ∧ Q s) s es := by
  induction es generalizing s with
  | nil => exact ⟨h, h'⟩
  | cons e es ih => exact ⟨⟨h.1, h'.1⟩, fun s' hs => ih (h.2 s' hs) (h'.2 s' hs)⟩

/-- What the states before and after a step say of the step, along a run. -/
theorem AllSteps.of_allStates {P : σ → Prop} {C : σ → ε → σ → Prop} {s : σ} {es : List ε}
    (hC : ∀ s e s', P s → step s e = some s' → P s' → C s e s') (h : AllStates step P s es) : AllSteps step C s es := by
  induction es generalizing s with
  | nil => trivial
  | cons e es ih =>
    intro s' hs
    have hs' := h.2 s' hs
    exact ⟨hC s e s' h.1 hs hs'.head, ih hs'⟩

/-- Two conditions that the possible steps from such states meet alike, the steps of a run meet alike. -/
theorem AllSteps.congr {P : σ → Prop} {C D : σ → ε → σ → Prop} {s : σ} {es : List ε} (h : AllStates step P s es)
    (hCD : ∀ s e s', P s → step s e = some s' → (C s e s' ↔ D s e s')) :
    AllSteps step C s es ↔ AllSteps step D s es := by
  induction es generalizing s with
  | nil => exact Iff.rfl
  | cons e es ih => exact forall₂_congr fun s' hs => and_congr (hCD s e s' h.1 hs) (ih (h.2 s' hs))

/-- A condition on steps that can be decided can be decided of a run. -/
instance AllSteps.decidable (C : σ → ε → σ → Prop) [∀ s e s', Decidable (C s e s')] :
    ∀ (s : σ) (es : List ε), Decidable (AllSteps step C s es)
  | _, [] => isTrue trivial
  | s, e :: es =>
    match h : step s e with
    | none => isTrue fun s' hs => by rw [h] at hs; nomatch hs
    | some s₁ =>
      haveI := AllSteps.decidable C s₁ es
      decidable_of_iff (C s e s₁ ∧ AllSteps step C s₁ es)
        ⟨fun hc s' hs => by rw [h, Option.some.injEq] at hs; exact hs ▸ hc, fun hr => hr s₁ h⟩

instance AllEvents.decidable (C : σ → ε → Prop) [∀ s e, Decidable (C s e)] :
    ∀ (s : σ) (es : List ε), Decidable (AllEvents step C s es)
  | _, [] => isTrue trivial
  | s, e :: es =>
    match h : step s e with
    | none => decidable_of_iff (C s e) ⟨fun hc => ⟨hc, fun s' hs => by rw [h] at hs; nomatch hs⟩, fun hr => hr.1⟩
    | some s₁ =>
      haveI := AllEvents.decidable C s₁ es
      decidable_of_iff (C s e ∧ AllEvents step C s₁ es)
        ⟨fun hr => ⟨hr.1, fun s' hs => by rw [h, Option.some.injEq] at hs; exact hs ▸ hr.2⟩,
        fun hr => ⟨hr.1, hr.2 s₁ h⟩⟩

instance AllStates.decidable (P : σ → Prop) [DecidablePred P] :
    ∀ (s : σ) (es : List ε), Decidable (AllStates step P s es)
  | s, [] => inferInstanceAs (Decidable (P s))
  | s, e :: es =>
    match h : step s e with
    | none => decidable_of_iff (P s) ⟨fun hp => ⟨hp, fun s' hs => by rw [h] at hs; nomatch hs⟩, fun hr => hr.1⟩
    | some s₁ =>
      haveI := AllStates.decidable P s₁ es
      decidable_of_iff (P s ∧ AllStates step P s₁ es)
        ⟨fun hr => ⟨hr.1, fun s' hs => by rw [h, Option.some.injEq] at hs; exact hs ▸ hr.2⟩,
        fun hr => ⟨hr.1, hr.2 s₁ h⟩⟩

theorem AllStates.mono {P Q : σ → Prop} (hPQ : ∀ s, P s → Q s) {s : σ} {es : List ε} (h : AllStates step P s es) :
    AllStates step Q s es := by
  induction es generalizing s with
  | nil => exact hPQ _ h
  | cons e es ih => exact ⟨hPQ _ h.1, fun s' hs => ih (h.2 s' hs)⟩

/-- The exact rule: where an invariant gives `P`, the steps that meet `C` keep it and no other step leads to `P`, `P`
holds of all states of a run just when all its steps meet `C`. `E` is what the environment does. -/
theorem AllStates.iff_allSteps {I P : σ → Prop} {C E : σ → ε → σ → Prop} {s : σ} {es : List ε} (h₀ : I s)
    (hI : ∀ s, I s → P s) (hkeep : ∀ s e s', I s → step s e = some s' → E s e s' → C s e s' → I s')
    (hbreak : ∀ s e s', I s → step s e = some s' → E s e s' → P s' → C s e s') (hE : AllSteps step E s es) :
    AllStates step P s es ↔ AllSteps step C s es := by
  induction es generalizing s with
  | nil => exact iff_of_true (hI s h₀) trivial
  | cons e es ih =>
    constructor
    · intro h s' hs
      obtain ⟨he, hE⟩ := hE s' hs
      have hP := h.2 s' hs
      have hc := hbreak s e s' h₀ hs he hP.head
      exact ⟨hc, (ih (hkeep s e s' h₀ hs he hc) hE).mp hP⟩
    · intro h
      refine ⟨hI s h₀, ?_⟩
      intro s' hs
      obtain ⟨he, hE⟩ := hE s' hs
      obtain ⟨hc, h⟩ := h s' hs
      exact (ih (hkeep s e s' h₀ hs he hc) hE).mpr h

/-- The refinement rule: a relation to the states of an abstract run, kept by the steps for which the abstract step
meets `C`, holds of the last states. -/
theorem exec_refines {τ : Type*} {abs : τ → ε → τ} {R : σ → τ → Prop} {C : τ → ε → Prop} {s s' : σ} {t : τ}
    {es : List ε} (hstep : ∀ s t e s', R s t → step s e = some s' → C t e → R s' (abs t e)) (h₀ : R s t)
    (hC : AllSteps (fun t e => some (abs t e)) (fun t e _ => C t e) t es) (hr : exec step s es = some s') :
    R s' (es.foldl abs t) := by
  induction es generalizing s t with
  | nil =>
    rw [exec_nil, Option.some.injEq] at hr
    exact hr ▸ h₀
  | cons e es ih =>
    rw [exec_cons, Option.bind_eq_some_iff] at hr
    obtain ⟨s₁, hs, hr⟩ := hr
    obtain ⟨hc, hC⟩ := hC _ rfl
    exact ih (hstep s t e s₁ h₀ hs hc) hC hr

/-- The simulation rule: where an event that meets `C` is possible from a state related to an abstract one, and keeps
the relation, the run comes to its end, in a state related to the last one of the abstract run. -/
theorem exec_simulates {τ : Type*} {abs : τ → ε → τ} {R : σ → τ → Prop} {C : σ → ε → Prop} {s : σ} {t : τ} {es : List ε}
    (hstep : ∀ s t e, R s t → C s e → ∃ s', step s e = some s' ∧ R s' (abs t e)) (h₀ : R s t)
    (hC : AllEvents step C s es) :
    ∃ s', exec step s es = some s' ∧ R s' (es.foldl abs t) := by
  induction es generalizing s t with
  | nil => exact ⟨s, rfl, h₀⟩
  | cons e es ih =>
    obtain ⟨s₁, hs, h₁⟩ := hstep s t e h₀ hC.1
    obtain ⟨s', hr, h'⟩ := ih h₁ (hC.2 s₁ hs)
    refine ⟨s', ?_, h'⟩
    rw [exec_cons, hs]
    exact hr

/-- Where an invariant makes every event possible that meets `C`, and is kept by it, the run comes to its end. -/
theorem exec_of_events {I : σ → Prop} {C : σ → ε → Prop} {s : σ} {es : List ε} (h₀ : I s)
    (hstep : ∀ s e, I s → C s e → ∃ s', step s e = some s' ∧ I s') (hC : AllEvents step C s es) :
    ∃ s', exec step s es = some s' ∧ I s' :=
  @exec_simulates σ ε step Unit (fun _ _ => ()) (fun s _ => I s) C s () es (fun s _ e => hstep s e) h₀ hC

end Run
