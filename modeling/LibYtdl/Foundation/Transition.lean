import Mathlib

/-!
# Runs of guarded step functions

A system is an executable step function whose value is `none` when the event cannot happen in the
state. Two predicates speak about a whole run: `Always` asks a property of every state the run
visits, and `Each` asks one of every step it takes. The rules below turn an invariant of one step
into a fact about a run, and turn the exact guard of one step into the exact guard of a run.
-/

namespace LibYtdl.Transition

/-- A guarded, executable step: `none` when the event cannot happen in the state. -/
abbrev Step (State Event : Type*) := State → Event → Option State

variable {State Event : Type*} {step : Step State Event}

/-- The state in which the run along `events` ends, when every event of it can happen. -/
def run (step : Step State Event) : State → List Event → Option State
  | start, [] => some start
  | start, event :: events => (step start event).bind fun next ↦ run step next events

/-- Every state that the run visits satisfies `P`, its first state and its last one included. -/
def Always (step : Step State Event) (P : State → Prop) : State → List Event → Prop
  | start, [] => P start
  | start, event :: events => P start ∧ ∀ next ∈ step start event, Always step P next events

/-- Every step that the run takes satisfies `Q`. -/
def Each (step : Step State Event) (Q : State → Event → State → Prop) :
    State → List Event → Prop
  | _, [] => True
  | start, event :: events =>
    ∀ next ∈ step start event, Q start event next ∧ Each step Q next events

@[simp] theorem run_nil (start : State) : run step start [] = some start := rfl

@[simp] theorem run_cons (start : State) (event : Event) (events : List Event) :
    run step start (event :: events) =
      (step start event).bind fun next ↦ run step next events := rfl

theorem run_append (start : State) (first second : List Event) :
    run step start (first ++ second) =
      (run step start first).bind fun middle ↦ run step middle second := by
  induction first generalizing start with
  | nil => rfl
  | cons event events ih =>
    simp only [List.cons_append, run_cons, ih, Option.bind_assoc]

theorem Always.head {P : State → Prop} {start : State} {events : List Event}
    (h : Always step P start events) : P start := by
  cases events with
  | nil => exact h
  | cons event events => exact h.1

theorem Always.mono {P Q : State → Prop} (himp : ∀ state, P state → Q state) {start : State}
    {events : List Event} (h : Always step P start events) : Always step Q start events := by
  induction events generalizing start with
  | nil => exact himp _ h
  | cons event events ih => exact ⟨himp _ h.1, fun next hnext ↦ ih (h.2 next hnext)⟩

/-- What holds in every state of a run holds in its last one. -/
theorem Always.last {P : State → Prop} {start last : State} {events : List Event}
    (h : Always step P start events) (hrun : run step start events = some last) : P last := by
  induction events generalizing start with
  | nil => exact Option.some.inj hrun ▸ h
  | cons event events ih =>
    obtain ⟨next, hnext, hrest⟩ := Option.bind_eq_some_iff.mp hrun
    exact ih (h.2 next hnext) hrest

theorem Each.and {Q R : State → Event → State → Prop} {start : State} {events : List Event}
    (hQ : Each step Q start events) (hR : Each step R start events) :
    Each step (fun state event next ↦ Q state event next ∧ R state event next) start events := by
  induction events generalizing start with
  | nil => trivial
  | cons event events ih =>
    exact fun next hnext ↦
      ⟨⟨(hQ next hnext).1, (hR next hnext).1⟩, ih (hQ next hnext).2 (hR next hnext).2⟩

/-- A check of every step that implies another one, step by step. -/
theorem Each.imp {Q R : State → Event → State → Prop} {start : State} {events : List Event}
    (himp : ∀ state event next, step state event = some next → Q state event next →
      R state event next)
    (h : Each step Q start events) : Each step R start events := by
  induction events generalizing start with
  | nil => trivial
  | cons event events ih =>
    exact fun next hnext ↦ ⟨himp _ _ _ hnext (h next hnext).1, ih (h next hnext).2⟩

theorem each_of_forall {Q : State → Event → State → Prop}
    (h : ∀ state event next, Q state event next) (start : State) (events : List Event) :
    Each step Q start events := by
  induction events generalizing start with
  | nil => trivial
  | cons event events ih => exact fun next _ ↦ ⟨h start event next, ih next⟩

/-- A check of the events alone. -/
theorem each_of_mem {Q : State → Event → State → Prop} {events : List Event}
    (h : ∀ event ∈ events, ∀ state next, Q state event next) (start : State) :
    Each step Q start events := by
  induction events generalizing start with
  | nil => trivial
  | cons event events ih =>
    refine fun next _ ↦ ⟨h event List.mem_cons_self start next, ih (fun later hlater ↦ ?_) next⟩
    exact h later (List.mem_cons_of_mem _ hlater)

/-- Checking a run of two parts. -/
theorem Each.append {Q : State → Event → State → Prop} {start middle : State}
    {first second : List Event} (hfirst : Each step Q start first)
    (hrun : run step start first = some middle) (hsecond : Each step Q middle second) :
    Each step Q start (first ++ second) := by
  induction first generalizing start with
  | nil => exact Option.some.inj hrun ▸ hsecond
  | cons event events ih =>
    intro next hnext
    obtain ⟨other, hother, hrest⟩ := Option.bind_eq_some_iff.mp hrun
    obtain rfl := Option.some.inj (hnext.symm.trans hother)
    exact ⟨(hfirst next hnext).1, ih (hfirst next hnext).2 hrest⟩

instance Each.decidable {Q : State → Event → State → Prop}
    [∀ state event next, Decidable (Q state event next)] :
    (start : State) → (events : List Event) → Decidable (Each step Q start events)
  | _, [] => isTrue trivial
  | start, event :: events =>
    match hstep : step start event with
    | none => isTrue fun next hnext ↦ by simp [hstep] at hnext
    | some next =>
      have := Each.decidable (Q := Q) next events
      decidable_of_iff (Q start event next ∧ Each step Q next events) (by simp [Each, hstep])

/-- The invariant rule: an invariant that every guarded step keeps holds along guarded runs. -/
theorem always_of_invariant {Inv : State → Prop} {Q : State → Event → State → Prop}
    (hstep : ∀ state event next, Inv state → Q state event next → step state event = some next →
      Inv next)
    {start : State} {events : List Event} (hstart : Inv start) (heach : Each step Q start events) :
    Always step Inv start events := by
  induction events generalizing start with
  | nil => exact hstart
  | cons event events ih =>
    refine ⟨hstart, fun next hnext ↦ ?_⟩
    obtain ⟨hguard, hrest⟩ := heach next hnext
    exact ih (hstep start event next hstart hguard hnext) hrest

/-- The invariant rule, read off at the last state of the run. -/
theorem run_invariant {Inv : State → Prop} {Q : State → Event → State → Prop}
    (hstep : ∀ state event next, Inv state → Q state event next → step state event = some next →
      Inv next)
    {start last : State} {events : List Event} (hstart : Inv start)
    (heach : Each step Q start events) (hrun : run step start events = some last) : Inv last :=
  (always_of_invariant hstep hstart heach).last hrun

/-- The invariant rule for checks: what every step out of the invariant satisfies. -/
theorem each_of_invariant {Inv : State → Prop} {Q R : State → Event → State → Prop}
    (hstep : ∀ state event next, Inv state → Q state event next → step state event = some next →
      R state event next ∧ Inv next)
    {start : State} {events : List Event} (hstart : Inv start) (heach : Each step Q start events) :
    Each step R start events := by
  induction events generalizing start with
  | nil => trivial
  | cons event events ih =>
    intro next hnext
    obtain ⟨hguard, hrest⟩ := heach next hnext
    obtain ⟨hcheck, hkept⟩ := hstep start event next hstart hguard hnext
    exact ⟨hcheck, ih hkept hrest⟩

/-- The exact-guard rule for states, for runs whose steps all satisfy `Assumed`. If guarded steps
keep an invariant that implies `P`, and every unguarded step out of the invariant breaks `P`, then
`P` holds throughout the run exactly when all of its steps are guarded. -/
theorem always_iff_each {Inv P : State → Prop} {Assumed Guard : State → Event → State → Prop}
    (hinv : ∀ state, Inv state → P state)
    (hstep : ∀ state event next, Inv state → Assumed state event next → Guard state event next →
      step state event = some next → Inv next)
    (hbreak : ∀ state event next, Inv state → Assumed state event next →
      ¬ Guard state event next → step state event = some next → ¬ P next)
    {start : State} {events : List Event} (hstart : Inv start)
    (hassumed : Each step Assumed start events) :
    Always step P start events ↔ Each step Guard start events := by
  induction events generalizing start with
  | nil => exact iff_of_true (hinv _ hstart) trivial
  | cons event events ih =>
    constructor
    · intro halways next hnext
      obtain ⟨hassume, hlater⟩ := hassumed next hnext
      have hguard : Guard start event next := by
        by_contra hnot
        exact hbreak start event next hstart hassume hnot hnext (halways.2 next hnext).head
      have hkept := hstep start event next hstart hassume hguard hnext
      exact ⟨hguard, (ih hkept hlater).mp (halways.2 next hnext)⟩
    · intro heach
      refine ⟨hinv _ hstart, fun next hnext ↦ ?_⟩
      obtain ⟨hassume, hlater⟩ := hassumed next hnext
      obtain ⟨hguard, hrest⟩ := heach next hnext
      exact (ih (hstep start event next hstart hassume hguard hnext) hlater).mpr hrest

/-- The exact-guard rule for steps: a property of single steps that is equivalent to a guard is
equivalent to it along every run. -/
theorem each_congr {Q R : State → Event → State → Prop}
    (hiff : ∀ state event next, step state event = some next →
      (Q state event next ↔ R state event next))
    {start : State} {events : List Event} :
    Each step Q start events ↔ Each step R start events := by
  induction events generalizing start with
  | nil => rfl
  | cons event events ih =>
    refine forall₂_congr fun next hnext ↦ ?_
    rw [hiff start event next hnext, ih]

/-! ## Observers

An observer sees the events only. It accepts a run when it allows every event in what it has
observed before. -/

/-- The observer allows each event of the run. -/
def Accepts {Observation : Type*} (allows : Observation → Event → Prop)
    (after : Observation → Event → Observation) : Observation → List Event → Prop
  | _, [] => True
  | observation, event :: events =>
    allows observation event ∧ Accepts allows after (after observation event) events

instance Accepts.decidable {Observation : Type*} {allows : Observation → Event → Prop}
    {after : Observation → Event → Observation}
    [∀ observation event, Decidable (allows observation event)] :
    (observation : Observation) → (events : List Event) →
      Decidable (Accepts allows after observation events)
  | _, [] => isTrue trivial
  | observation, event :: events =>
    have : Decidable (Accepts allows after (after observation event) events) :=
      Accepts.decidable (after observation event) events
    inferInstanceAs (Decidable (_ ∧ _))

end LibYtdl.Transition
