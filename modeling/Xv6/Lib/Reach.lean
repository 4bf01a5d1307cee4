import Mathlib

/-!
# Reachable states of a system given by a partial step function

A system is a step function `step : σ → ε → Option σ`: in state `s` the event `e` is
either disabled (`none`: the code would not get there, or panics) or leads to one next
state. A run may be restricted further by a relation `ok` on its transitions: a safety
property that holds only "as long as nothing overflows" is a property of the runs all
of whose transitions are `ok`.

`Reachable step ok init` is the set of states such runs reach. The rule
`Reachable.rec_inv` turns "holds initially and each allowed step keeps it" into "holds in
every reachable state"; `run` executes a list of events, and `Reachable.run` and
`Reachable.exists_of_steps` build reachable states from concrete runs and from `N`
repetitions of one event, which is how counterexample traces are assembled.
-/

set_option autoImplicit false

namespace Reach

variable {σ ε : Type*}

/-- The states reached from `init` by enabled events along `ok` transitions. -/
inductive Reachable (step : σ → ε → Option σ) (ok : σ → σ → Prop) (init : σ) : σ → Prop
  | init : Reachable step ok init init
  | step {s s' : σ} (e : ε) : Reachable step ok init s → step s e = some s' → ok s s' →
      Reachable step ok init s'

/-- Execute the events in order; `none` as soon as one is disabled. -/
def run (step : σ → ε → Option σ) : σ → List ε → Option σ
  | s, [] => some s
  | s, e :: es => (step s e).bind fun s' => run step s' es

/-- Execute the events in order, checking each transition against `ok`: `none` as soon as
one is disabled or not allowed. -/
def runWith (step : σ → ε → Option σ) (ok : σ → σ → Prop) [DecidableRel ok] :
    σ → List ε → Option σ
  | s, [] => some s
  | s, e :: es => (step s e).bind fun s' => if ok s s' then runWith step ok s' es else none

/-- A step that runs a fallible function is enabled where the function succeeds. -/
theorem toOption_eq_some {α : Type*} {x : Except ε α} {a : α} (h : x.toOption = some a) :
    x = .ok a := by
  cases x with
  | error _ => cases h
  | ok _ => cases h; rfl

section

variable {step : σ → ε → Option σ} {ok : σ → σ → Prop} {init : σ}

/-- **Invariant rule.** -/
theorem Reachable.rec_inv {I : σ → Prop} (h0 : I init)
    (hstep : ∀ s e s', I s → step s e = some s' → ok s s' → I s') {s : σ}
    (h : Reachable step ok init s) : I s := by
  induction h with
  | init => exact h0
  | step e _ he hok ih => exact hstep _ e _ ih he hok

/-- The rule with the invariant itself, and reachability, available at each step. -/
theorem Reachable.rec_inv' {I : σ → Prop} (h0 : I init)
    (hstep : ∀ s e s', Reachable step ok init s → I s → step s e = some s' → ok s s' → I s')
    {s : σ} (h : Reachable step ok init s) : I s := by
  induction h with
  | init => exact h0
  | step e hr he hok ih => exact hstep _ e _ hr ih he hok

theorem Reachable.mono {ok' : σ → σ → Prop} (hle : ∀ s s', ok s s' → ok' s s') {s : σ}
    (h : Reachable step ok init s) : Reachable step ok' init s := by
  induction h with
  | init => exact .init
  | step e _ he hok ih => exact .step e ih he (hle _ _ hok)

@[simp] theorem run_nil (s : σ) : run step s [] = some s := rfl

theorem run_cons (s : σ) (e : ε) (es : List ε) :
    run step s (e :: es) = (step s e).bind fun s' => run step s' es := rfl

theorem run_append (s : σ) (es fs : List ε) :
    run step s (es ++ fs) = (run step s es).bind fun s' => run step s' fs := by
  induction es generalizing s with
  | nil => rfl
  | cons e es ih =>
    simp only [List.cons_append, run_cons]
    cases step s e with
    | none => rfl
    | some s' => exact ih s'

/-- A run whose transitions are all allowed ends in a reachable state. -/
theorem Reachable.run (hok : ∀ s s', ok s s') {s s' : σ} (h : Reachable step ok init s) :
    ∀ {es : List ε}, Reach.run step s es = some s' → Reachable step ok init s'
  | [], hr => by cases hr; exact h
  | e :: es, hr => by
    rw [run_cons] at hr
    obtain ⟨t, ht, hr⟩ := Option.bind_eq_some_iff.mp hr
    exact (Reachable.step e h ht (hok _ _)).run hok hr

/-- A run whose every transition passes the check ends in a reachable state. -/
theorem Reachable.runWith [DecidableRel ok] {s s' : σ} (h : Reachable step ok init s) :
    ∀ {es : List ε}, Reach.runWith step ok s es = some s' → Reachable step ok init s'
  | [], hr => by cases hr; exact h
  | e :: es, hr => by
    simp only [Reach.runWith] at hr
    obtain ⟨t, ht, hr⟩ := Option.bind_eq_some_iff.mp hr
    split_ifs at hr with hok
    exact (Reachable.step e h ht hok).runWith hr

/-- **Induction along a run**: if a reachable state satisfies `P 0`, and from every
reachable state satisfying `P k`, `k < N`, the event `e` leads along an allowed transition
to a state satisfying `P (k + 1)`, then a reachable state satisfies `P N`. -/
theorem Reachable.exists_of_steps {P : Nat → σ → Prop} (e : ε) {N : Nat}
    (h0 : ∃ s, Reachable step ok init s ∧ P 0 s)
    (hstep : ∀ k s, k < N → Reachable step ok init s → P k s →
      ∃ s', step s e = some s' ∧ ok s s' ∧ P (k + 1) s') :
    ∃ s, Reachable step ok init s ∧ P N s := by
  induction N with
  | zero => exact h0
  | succ N ih =>
    obtain ⟨s, hs, hP⟩ := ih fun k s hk => hstep k s (by omega)
    obtain ⟨s', he, hok, hP'⟩ := hstep N s (by omega) hs hP
    exact ⟨s', .step e hs he hok, hP'⟩

/-- **Induction along a repeated event**, for runs from any state: if `s` satisfies `P 0`,
and from every state satisfying `P k`, `k < N`, the event `e` leads to a state satisfying
`P (k + 1)`, then `N` repetitions of `e` from `s` end in a state satisfying `P N`. -/
theorem run_replicate_of_steps {P : Nat → σ → Prop} (e : ε) {N : Nat} {s : σ} (h0 : P 0 s)
    (hstep : ∀ k t, k < N → P k t → ∃ t', step t e = some t' ∧ P (k + 1) t') :
    ∃ t, run step s (List.replicate N e) = some t ∧ P N t := by
  induction N with
  | zero => exact ⟨s, rfl, h0⟩
  | succ N ih =>
    obtain ⟨t, ht, hP⟩ := ih fun k t hk => hstep k t (by omega)
    obtain ⟨t', he, hP'⟩ := hstep N t (by omega) hP
    refine ⟨t', ?_, hP'⟩
    rw [List.replicate_succ', run_append, ht, Option.bind_some, run_cons, he, Option.bind_some,
      run_nil]

/-- A fold in `Option` is a run whose events are the elements of the list. -/
theorem foldlM_eq_run (f : σ → ε → Option σ) (s : σ) (es : List ε) :
    es.foldlM f s = run f s es := by
  induction es generalizing s with
  | nil => rfl
  | cons e es ih =>
    rw [List.foldlM_cons, run_cons]
    cases f s e with
    | none => rfl
    | some s' => exact ih s'

/-- **Invariant along a run**: a property that every event of the run keeps holds at its end. -/
theorem run_inv {P : σ → Prop} {s t : σ} {es : List ε} (h0 : P s)
    (hstep : ∀ e ∈ es, ∀ s s', P s → step s e = some s' → P s') (h : run step s es = some t) :
    P t := by
  induction es generalizing s with
  | nil => cases h; exact h0
  | cons e es ih =>
    rw [run_cons] at h
    obtain ⟨s', he, h⟩ := Option.bind_eq_some_iff.mp h
    exact ih (hstep e List.mem_cons_self s s' h0 he) (fun e' he' => hstep e' (List.mem_cons_of_mem e he')) h

end

/-! ## Simulation -/

section Sim

variable {σ' : Type*} {step : σ → ε → Option σ} {step' : σ' → ε → Option σ'} {f : σ → σ'}
  {I : σ → Prop}

/-- **Simulation along a run.** A map that commutes with each event from the states where an
invariant holds, the events keeping the invariant, commutes with every run from such a
state. -/
theorem run_map (hkeep : ∀ s e s', I s → step s e = some s' → I s')
    (hcomm : ∀ s e, I s → (step s e).map f = step' (f s) e) :
    ∀ (es : List ε) {s : σ}, I s → (run step s es).map f = run step' (f s) es
  | [], _, _ => rfl
  | e :: es, s, hs => by
    rw [run_cons, run_cons, ← hcomm s e hs]
    cases he : step s e with
    | none => rfl
    | some s' =>
      rw [Option.bind_some, Option.map_some, Option.bind_some]
      exact run_map hkeep hcomm es (hkeep s e s' hs he)

/-- **Simulation of the reachable states.** Under such a map, a state reachable from `init`
has the invariant, if `init` has it, and its image is reachable from the image of `init`. -/
theorem Reachable.map {ok : σ → σ → Prop} {ok' : σ' → σ' → Prop} {init : σ}
    (hok : ∀ s s', ok s s' → ok' (f s) (f s')) (h0 : I init)
    (hkeep : ∀ s e s', I s → step s e = some s' → I s')
    (hcomm : ∀ s e, I s → (step s e).map f = step' (f s) e) {s : σ}
    (h : Reachable step ok init s) : I s ∧ Reachable step' ok' (f init) (f s) := by
  induction h with
  | init => exact ⟨h0, .init⟩
  | step e _ he hokss ih =>
    obtain ⟨hI, hr⟩ := ih
    have hstep := hcomm _ e hI
    rw [he, Option.map_some] at hstep
    exact ⟨hkeep _ e _ hI he, .step e hr hstep.symm (hok _ _ hokss)⟩

end Sim

section Stutter

variable {σ' ε' : Type*} {step : σ → ε → Option σ} {step' : σ' → ε' → Option σ'} {f : σ → σ'}
  {I : σ → Prop}

/-- **Stuttering simulation.** If every allowed step from a state with the invariant keeps it
and either leaves the image as it is or is a step of the other system between the images,
then every reachable state has the invariant and its image is reachable from the image of
`init`. -/
theorem Reachable.simulate {ok : σ → σ → Prop} {init : σ} (h0 : I init)
    (hsim : ∀ s e s', I s → step s e = some s' → ok s s' →
      I s' ∧ (f s' = f s ∨ ∃ e', step' (f s) e' = some (f s')))
    {s : σ} (h : Reachable step ok init s) :
    I s ∧ Reachable step' (fun _ _ => True) (f init) (f s) := by
  induction h with
  | init => exact ⟨h0, .init⟩
  | step e _ he hok ih =>
    obtain ⟨hI, hr⟩ := ih
    obtain ⟨hI', hsame | ⟨e', he'⟩⟩ := hsim _ e _ hI he hok
    · exact ⟨hI', hsame ▸ hr⟩
    · exact ⟨hI', .step e' hr he' trivial⟩

end Stutter

end Reach
