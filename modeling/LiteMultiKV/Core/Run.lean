import Mathlib

/-!
# Runs of a partial step function

A system takes an input in a state and either answers and moves on or has no
defined result.  This file has the run of a list of inputs, predicates over the
steps of a run, and the rules by which a fact about one step becomes a fact
about all runs: an invariant, a simulation between two systems, and a
comparison of a run with the run of a part of its inputs.
-/

namespace LiteMultiKV.Run

variable {S T I O : Type*}

/-- The final state and the answers. -/
def run (step : S → I → Option (S × O)) : S → List I → Option (S × List O)
  | state, [] => some (state, [])
  | state, input :: inputs => do
      let (state, output) ← step state input
      let (state, outputs) ← run step state inputs
      return (state, output :: outputs)

/-- Every step that the run reaches starts from a state that satisfies the
condition. -/
def Along (step : S → I → Option (S × O)) (condition : S → I → Prop) : S → List I → Prop
  | _, [] => True
  | state, input :: inputs =>
      condition state input ∧
        ∀ after output, step state input = some (after, output) →
          Along step condition after inputs

/-- A condition that can be checked at one step can be checked along a run. -/
def decidableAlong (step : S → I → Option (S × O)) (condition : S → I → Prop)
    [∀ state input, Decidable (condition state input)] :
    ∀ state inputs, Decidable (Along step condition state inputs)
  | _, [] => isTrue trivial
  | state, input :: inputs =>
      match hstep : step state input with
      | none => decidable_of_iff (condition state input) (by simp [Along, hstep])
      | some (after, output) =>
          have := decidableAlong step condition after inputs
          decidable_of_iff (condition state input ∧ Along step condition after inputs)
            (by simp [Along, hstep])

instance (step : S → I → Option (S × O)) (condition : S → I → Prop)
    [∀ state input, Decidable (condition state input)] (state : S) (inputs : List I) :
    Decidable (Along step condition state inputs) :=
  decidableAlong step condition state inputs

/-- Every state that the run reaches has the property. -/
def Throughout (step : S → I → Option (S × O)) (property : S → Prop) : S → List I → Prop
  | state, [] => property state
  | state, input :: inputs =>
      property state ∧ ∀ after output, step state input = some (after, output) →
        Throughout step property after inputs

/-- Every step of the run has a result, and it satisfies the property. -/
def Every (step : S → I → Option (S × O)) (property : S → I → O → Prop) :
    S → List I → Prop
  | _, [] => True
  | state, input :: inputs =>
      ∃ after output, step state input = some (after, output) ∧
        property state input output ∧ Every step property after inputs

/-- The answers to the inputs that pass a test. -/
def answersTo (keep : I → Bool) (inputs : List I) (outputs : List O) : List O :=
  ((inputs.zip outputs).filter fun pair => keep pair.1).map Prod.snd

/-- What an observer has noted who sees each input with its answer. -/
def observed {A : Type*} (note : A → I → O → A) : A → List I → List O → A
  | noted, input :: inputs, output :: outputs =>
      observed note (note noted input output) inputs outputs
  | noted, _, _ => noted

variable {step : S → I → Option (S × O)} {other : T → I → Option (T × O)}
variable {condition : S → I → Prop} {state : S} {inputs : List I}

theorem Throughout.here {property : S → Prop}
    (hthroughout : Throughout step property state inputs) : property state := by
  cases inputs with
  | nil => exact hthroughout
  | cons input inputs => exact hthroughout.1

theorem run_cons {input : I} {after : S} {output : O}
    (hstep : step state input = some (after, output)) (inputs : List I) :
    run step state (input :: inputs) =
      (run step after inputs).map fun result => (result.1, output :: result.2) := by
  rw [run, hstep]
  cases hrun : run step after inputs with
  | none => simp [hrun]
  | some result => simp [hrun]

theorem run_eq_some_cons {input : I} {final : S} {outputs : List O}
    (hrun : run step state (input :: inputs) = some (final, outputs)) :
    ∃ after output rest, step state input = some (after, output) ∧
      run step after inputs = some (final, rest) ∧ outputs = output :: rest := by
  cases hstep : step state input with
  | none => simp [run, hstep] at hrun
  | some result =>
      obtain ⟨after, output⟩ := result
      rw [run_cons hstep, Option.map_eq_some_iff] at hrun
      obtain ⟨⟨last, rest⟩, hrest, heq⟩ := hrun
      obtain ⟨rfl, rfl⟩ := Prod.mk.inj heq
      exact ⟨after, output, rest, rfl, hrest, rfl⟩

theorem run_append {middle : S} {outputs : List O}
    (hrun : run step state inputs = some (middle, outputs)) (more : List I) :
    run step state (inputs ++ more) =
      (run step middle more).map fun result => (result.1, outputs ++ result.2) := by
  induction inputs generalizing state outputs with
  | nil =>
      simp only [run, Option.some.injEq, Prod.mk.injEq] at hrun
      obtain ⟨rfl, rfl⟩ := hrun
      simp
  | cons input inputs ih =>
      obtain ⟨after, output, rest, hstep, hrest, rfl⟩ := run_eq_some_cons hrun
      rw [List.cons_append, run_cons hstep, ih hrest, Option.map_map]
      rfl

/-- A condition holds along two runs in a row if it holds along each of them. -/
theorem Along.append {middle : S} {outputs : List O} {more : List I}
    (halong : Along step condition state inputs)
    (hrun : run step state inputs = some (middle, outputs))
    (hmore : Along step condition middle more) :
    Along step condition state (inputs ++ more) := by
  induction inputs generalizing state outputs with
  | nil =>
      simp only [run, Option.some.injEq, Prod.mk.injEq] at hrun
      exact hrun.1 ▸ hmore
  | cons input inputs ih =>
      refine ⟨halong.1, fun after output hstep => ?_⟩
      obtain ⟨after', output', rest, hstep', hrest, -⟩ := run_eq_some_cons hrun
      rw [hstep', Option.some.injEq, Prod.mk.injEq] at hstep
      obtain ⟨rfl, rfl⟩ := hstep
      exact ih (halong.2 after' output' hstep') hrest

/-- The second half of a run starts where the first one ends. -/
theorem Along.of_append {middle : S} {outputs : List O} {more : List I}
    (halong : Along step condition state (inputs ++ more))
    (hrun : run step state inputs = some (middle, outputs)) :
    Along step condition middle more := by
  induction inputs generalizing state outputs with
  | nil =>
      simp only [run, Option.some.injEq, Prod.mk.injEq] at hrun
      exact hrun.1 ▸ halong
  | cons input inputs ih =>
      obtain ⟨after, output, rest, hstep, hrest, -⟩ := run_eq_some_cons hrun
      exact ih (halong.2 after output hstep) hrest

theorem along_of_forall (hall : ∀ state, ∀ input ∈ inputs, condition state input)
    (state : S) : Along step condition state inputs := by
  induction inputs generalizing state with
  | nil => trivial
  | cons input inputs ih =>
      refine ⟨hall state input List.mem_cons_self, fun after output _ => ?_⟩
      exact ih (fun state input hinput => hall state input (List.mem_cons_of_mem _ hinput))
        after

theorem Along.imp {weaker : S → I → Prop}
    (himp : ∀ state input, condition state input → weaker state input)
    (halong : Along step condition state inputs) : Along step weaker state inputs := by
  induction inputs generalizing state with
  | nil => trivial
  | cons input inputs ih =>
      exact ⟨himp state input halong.1, fun after output hstep =>
        ih (halong.2 after output hstep)⟩

theorem Along.and {other : S → I → Prop} (hfirst : Along step condition state inputs)
    (hsecond : Along step other state inputs) :
    Along step (fun state input => condition state input ∧ other state input) state inputs := by
  induction inputs generalizing state with
  | nil => trivial
  | cons input inputs ih =>
      exact ⟨⟨hfirst.1, hsecond.1⟩, fun after output hstep =>
        ih (hfirst.2 after output hstep) (hsecond.2 after output hstep)⟩

/-- A condition on single inputs can be checked before the run. -/
theorem Along.and_forall {test : I → Prop} (halong : Along step condition state inputs)
    (htest : ∀ input ∈ inputs, test input) :
    Along step (fun state input => condition state input ∧ test input) state inputs := by
  induction inputs generalizing state with
  | nil => trivial
  | cons input inputs ih =>
      refine ⟨⟨halong.1, htest input List.mem_cons_self⟩, fun after output hstep => ?_⟩
      exact ih (halong.2 after output hstep)
        fun input hinput => htest input (List.mem_cons_of_mem _ hinput)

/-- The invariant rule. -/
theorem run_invariant (invariant : S → Prop) {property : S → I → O → Prop}
    (hstep : ∀ state input, invariant state → condition state input →
      ∃ after output, step state input = some (after, output) ∧ invariant after ∧
        property state input output)
    (hstart : invariant state) (halong : Along step condition state inputs) :
    (∃ final outputs, run step state inputs = some (final, outputs) ∧ invariant final) ∧
      Every step property state inputs := by
  induction inputs generalizing state with
  | nil => exact ⟨⟨state, [], rfl, hstart⟩, trivial⟩
  | cons input inputs ih =>
      obtain ⟨after, output, heq, hafter, hproperty⟩ := hstep state input hstart halong.1
      obtain ⟨⟨final, outputs, hrun, hfinal⟩, hevery⟩ := ih hafter (halong.2 after output heq)
      refine ⟨⟨final, output :: outputs, ?_, hfinal⟩, after, output, heq, hproperty, hevery⟩
      rw [run_cons heq, hrun]
      rfl

/-- When a condition decides whether a step has a result with the property, it decides
the same along a run.  The invariant is needed only after steps with the property. -/
theorem every_iff_along {invariant : S → Prop} {property : S → I → O → Prop}
    (admitted : I → Prop)
    (hstep : ∀ state input, invariant state → admitted input →
      ((∃ after output, step state input = some (after, output) ∧ property state input output) ↔
        condition state input))
    (hkeep : ∀ state input after output, invariant state → admitted input →
      step state input = some (after, output) → property state input output → invariant after)
    (hstart : invariant state) (hadmitted : ∀ input ∈ inputs, admitted input) :
    Every step property state inputs ↔ Along step condition state inputs := by
  induction inputs generalizing state with
  | nil => exact Iff.rfl
  | cons input inputs ih =>
      have hinput := hadmitted input List.mem_cons_self
      have hrest : ∀ after output, step state input = some (after, output) →
          property state input output →
          (Every step property after inputs ↔ Along step condition after inputs) :=
        fun after output heq hproperty =>
          ih (hkeep state input after output hstart hinput heq hproperty)
            fun other hother => hadmitted other (List.mem_cons_of_mem _ hother)
      refine ⟨fun hevery => ?_, fun halong => ?_⟩
      · obtain ⟨after, output, heq, hproperty, hevery⟩ := hevery
        refine ⟨(hstep state input hstart hinput).1 ⟨after, output, heq, hproperty⟩,
          fun other answer hother => ?_⟩
        obtain ⟨rfl, -⟩ : after = other ∧ output = answer := by simpa [heq] using hother
        exact (hrest after output heq hproperty).1 hevery
      · obtain ⟨after, output, heq, hproperty⟩ := (hstep state input hstart hinput).2 halong.1
        exact ⟨after, output, heq, hproperty,
          (hrest after output heq hproperty).2 (halong.2 after output heq)⟩

/-- What every step with a result preserves under a condition holds at the end of a run
whose steps meet the condition. -/
theorem run_preserves_along {invariant : S → Prop}
    (hstep : ∀ state input after output, invariant state → condition state input →
      step state input = some (after, output) → invariant after)
    (hstart : invariant state) (halong : Along step condition state inputs) {final : S}
    {outputs : List O} (hrun : run step state inputs = some (final, outputs)) :
    invariant final := by
  induction inputs generalizing state outputs with
  | nil =>
      simp only [run, Option.some.injEq, Prod.mk.injEq] at hrun
      exact hrun.1 ▸ hstart
  | cons input inputs ih =>
      obtain ⟨after, output, rest, heq, hrest, -⟩ := run_eq_some_cons hrun
      exact ih (hstep state input after output hstart halong.1 heq)
        (halong.2 after output heq) hrest

/-- A relation between the state and the answers so far that steps keep under a condition
holds at the end of a run that meets the condition. -/
theorem run_history_along {invariant : S → List O → Prop}
    (hstep : ∀ state past input after output, invariant state past → condition state input →
      step state input = some (after, output) → invariant after (past ++ [output]))
    {past : List O} (hstart : invariant state past) (halong : Along step condition state inputs)
    {final : S} {outputs : List O} (hrun : run step state inputs = some (final, outputs)) :
    invariant final (past ++ outputs) := by
  induction inputs generalizing state past outputs with
  | nil =>
      simp only [run, Option.some.injEq, Prod.mk.injEq] at hrun
      obtain ⟨rfl, rfl⟩ := hrun
      simpa using hstart
  | cons input inputs ih =>
      obtain ⟨after, output, rest, heq, hrest, rfl⟩ := run_eq_some_cons hrun
      have hafter := hstep state past input after output hstart halong.1 heq
      simpa using ih hafter (halong.2 after output heq) hrest

/-- A property that steps keep under a condition holds throughout a run that meets the
condition. -/
theorem throughout_of_along {invariant property : S → Prop}
    (hstep : ∀ state input after output, invariant state → property state →
      condition state input → step state input = some (after, output) →
      invariant after ∧ property after)
    (hstart : invariant state) (hproperty : property state)
    (halong : Along step condition state inputs) : Throughout step property state inputs := by
  induction inputs generalizing state with
  | nil => exact hproperty
  | cons input inputs ih =>
      refine ⟨hproperty, fun after output heq => ?_⟩
      obtain ⟨hafter, hkept⟩ := hstep state input after output hstart hproperty halong.1 heq
      exact ih hafter hkept (halong.2 after output heq)

/-- A condition without which a step loses a property is met along every run that has
the property throughout. -/
theorem along_of_throughout {invariant property : S → Prop} (admitted : I → Prop)
    (hstep : ∀ state input, invariant state → property state → admitted input →
      ∃ after output, step state input = some (after, output) ∧ invariant after ∧
        (property after → condition state input))
    (hstart : invariant state) (hadmitted : ∀ input ∈ inputs, admitted input)
    (hthroughout : Throughout step property state inputs) :
    Along step condition state inputs := by
  induction inputs generalizing state with
  | nil => trivial
  | cons input inputs ih =>
      obtain ⟨hproperty, hrest⟩ := hthroughout
      obtain ⟨after, output, heq, hafter, hcondition⟩ :=
        hstep state input hstart hproperty (hadmitted input List.mem_cons_self)
      have hthere : Throughout step property after inputs := hrest after output heq
      refine ⟨hcondition hthere.here, fun other answer hother => ?_⟩
      obtain ⟨rfl, -⟩ : after = other ∧ output = answer := by simpa [heq] using hother
      exact ih hafter (fun input hinput => hadmitted input (List.mem_cons_of_mem _ hinput)) hthere

/-- What every step with a result preserves holds at the end of a run. -/
theorem run_preserves {invariant : S → Prop}
    (hstep : ∀ state input after output, invariant state →
      step state input = some (after, output) → invariant after)
    (hstart : invariant state) {final : S} {outputs : List O}
    (hrun : run step state inputs = some (final, outputs)) : invariant final :=
  run_preserves_along
    (fun state input after output hstate _ => hstep state input after output hstate)
    hstart (along_of_forall (fun _ _ _ => trivial) state) hrun

/-- The simulation rule: two systems in related states give answers that look
the same. -/
theorem run_simulation {V : Type*} {relation : S → T → Prop} {view : I → O → V}
    (hstep : ∀ state twin input, relation state twin → condition state input →
      ∃ after output twinAfter twinOutput, step state input = some (after, output) ∧
        other twin input = some (twinAfter, twinOutput) ∧
        view input output = view input twinOutput ∧ relation after twinAfter)
    {twin : T} (hstart : relation state twin) (halong : Along step condition state inputs) :
    ∃ final outputs twinFinal twinOutputs, run step state inputs = some (final, outputs) ∧
      run other twin inputs = some (twinFinal, twinOutputs) ∧
      List.zipWith view inputs outputs = List.zipWith view inputs twinOutputs ∧
      relation final twinFinal := by
  induction inputs generalizing state twin with
  | nil => exact ⟨state, [], twin, [], rfl, rfl, rfl, hstart⟩
  | cons input inputs ih =>
      obtain ⟨after, output, twinAfter, twinOutput, heq, htwin, hview, hrelation⟩ :=
        hstep state twin input hstart halong.1
      obtain ⟨final, outputs, twinFinal, twinOutputs, hrun, htwinRun, hviews, hfinal⟩ :=
        ih hrelation (halong.2 after output heq)
      refine ⟨final, output :: outputs, twinFinal, twinOutput :: twinOutputs, ?_, ?_, ?_,
        hfinal⟩
      · rw [run_cons heq, hrun]
        rfl
      · rw [run_cons htwin, htwinRun]
        rfl
      · rw [List.zipWith_cons_cons, List.zipWith_cons_cons, hview, hviews]

/-- The refinement rule: under a condition on the concrete system, the abstract one gives
the same answers, and an observer of these answers learns about both. -/
theorem run_refines_observed {A : Type*} (note : A → I → O → A) (relation : S → T → A → Prop)
    (hstep : ∀ state twin noted input, relation state twin noted → condition state input →
      ∃ after twinAfter output, step state input = some (after, output) ∧
        other twin input = some (twinAfter, output) ∧
        relation after twinAfter (note noted input output))
    {twin : T} (noted : A) (hstart : relation state twin noted)
    (halong : Along step condition state inputs) :
    ∃ final twinFinal outputs, run step state inputs = some (final, outputs) ∧
      run other twin inputs = some (twinFinal, outputs) ∧
      relation final twinFinal (observed note noted inputs outputs) := by
  induction inputs generalizing state twin noted with
  | nil => exact ⟨state, twin, [], rfl, rfl, hstart⟩
  | cons input inputs ih =>
      obtain ⟨after, twinAfter, output, heq, htwin, hrelation⟩ :=
        hstep state twin noted input hstart halong.1
      obtain ⟨final, twinFinal, outputs, hrun, htwinRun, hfinal⟩ :=
        ih _ hrelation (halong.2 after output heq)
      refine ⟨final, twinFinal, output :: outputs, ?_, ?_, hfinal⟩
      · rw [run_cons heq, hrun]
        rfl
      · rw [run_cons htwin, htwinRun]
        rfl

/-- Refinement without an observer. -/
theorem run_refines {relation : S → T → Prop}
    (hstep : ∀ state twin input, relation state twin → condition state input →
      ∃ after twinAfter output, step state input = some (after, output) ∧
        other twin input = some (twinAfter, output) ∧ relation after twinAfter)
    {twin : T} (hstart : relation state twin) (halong : Along step condition state inputs) :
    ∃ final twinFinal outputs, run step state inputs = some (final, outputs) ∧
      run other twin inputs = some (twinFinal, outputs) ∧ relation final twinFinal :=
  run_refines_observed (fun _ _ _ => ()) (fun state twin _ => relation state twin)
    (fun state twin _ input => hstep state twin input) () hstart halong

/-- The observer rule: a relation between the state and the notes of an observer that
every step keeps holds at the end of a run. -/
theorem run_observed {A : Type*} {note : A → I → O → A} {relation : S → A → Prop}
    (hstep : ∀ state noted input, relation state noted → condition state input →
      ∃ after output, step state input = some (after, output) ∧
        relation after (note noted input output))
    {noted : A} (hstart : relation state noted) (halong : Along step condition state inputs) :
    ∃ final outputs, run step state inputs = some (final, outputs) ∧
      relation final (observed note noted inputs outputs) := by
  have htwin : ∀ state twin noted input, relation state noted ∧ state = twin →
      condition state input → ∃ after twinAfter output, step state input = some (after, output) ∧
        step twin input = some (twinAfter, output) ∧
        relation after (note noted input output) ∧ after = twinAfter := by
    rintro state twin noted input ⟨hrelation, rfl⟩ hcondition
    obtain ⟨after, output, heq, hafter⟩ := hstep state noted input hrelation hcondition
    exact ⟨after, after, output, heq, heq, hafter, rfl⟩
  obtain ⟨final, -, outputs, hrun, -, hfinal, -⟩ := run_refines_observed note _ htwin noted
    ⟨hstart, rfl⟩ halong
  exact ⟨final, outputs, hrun, hfinal⟩

/-- The filter rule: inputs that fail the test leave the relation to the run
without them intact, the others get answers that agree. -/
theorem run_filter_agrees {relation : S → T → Prop} {keep : I → Bool} {agree : O → O → Prop}
    (hkeep : ∀ state twin input, relation state twin → condition state input →
      keep input = true → ∃ after twinAfter output twinOutput,
        step state input = some (after, output) ∧ other twin input = some (twinAfter, twinOutput) ∧
        agree output twinOutput ∧ relation after twinAfter)
    (hdrop : ∀ state twin input, relation state twin → condition state input →
      keep input = false → ∃ after output, step state input = some (after, output) ∧
        relation after twin)
    {twin : T} (hstart : relation state twin) (halong : Along step condition state inputs) :
    ∃ final outputs twinFinal twinOutputs, run step state inputs = some (final, outputs) ∧
      run other twin (inputs.filter keep) = some (twinFinal, twinOutputs) ∧
      List.Forall₂ agree (answersTo keep inputs outputs) twinOutputs := by
  induction inputs generalizing state twin with
  | nil => exact ⟨state, [], twin, [], rfl, rfl, .nil⟩
  | cons input inputs ih =>
      cases htest : keep input with
      | true =>
          obtain ⟨after, twinAfter, output, twinOutput, heq, htwin, hagree, hrelation⟩ :=
            hkeep state twin input hstart halong.1 htest
          obtain ⟨final, outputs, twinFinal, twinOutputs, hrun, htwinRun, hall⟩ :=
            ih hrelation (halong.2 after output heq)
          refine ⟨final, output :: outputs, twinFinal, twinOutput :: twinOutputs, ?_, ?_, ?_⟩
          · rw [run_cons heq, hrun]
            rfl
          · rw [List.filter_cons_of_pos htest, run_cons htwin, htwinRun]
            rfl
          · have hanswers : answersTo keep (input :: inputs) (output :: outputs) =
                output :: answersTo keep inputs outputs := by
              simp [answersTo, htest]
            exact hanswers ▸ .cons hagree hall
      | false =>
          obtain ⟨after, output, heq, hrelation⟩ :=
            hdrop state twin input hstart halong.1 htest
          obtain ⟨final, outputs, twinFinal, twinOutputs, hrun, htwinRun, hall⟩ :=
            ih hrelation (halong.2 after output heq)
          refine ⟨final, output :: outputs, twinFinal, twinOutputs, ?_, ?_, ?_⟩
          · rw [run_cons heq, hrun]
            rfl
          · rw [List.filter_cons_of_neg (by simp [htest]), htwinRun]
          · have hanswers : answersTo keep (input :: inputs) (output :: outputs) =
                answersTo keep inputs outputs := by
              simp [answersTo, htest]
            exact hanswers ▸ hall

/-- The filter rule for one system and equal answers. -/
theorem run_filter {relation : S → S → Prop} {keep : I → Bool}
    (hkeep : ∀ state twin input, relation state twin → condition state input →
      keep input = true → ∃ after twinAfter output, step state input = some (after, output) ∧
        step twin input = some (twinAfter, output) ∧ relation after twinAfter)
    (hdrop : ∀ state twin input, relation state twin → condition state input →
      keep input = false → ∃ after output, step state input = some (after, output) ∧
        relation after twin)
    {twin : S} (hstart : relation state twin) (halong : Along step condition state inputs) :
    ∃ final outputs twinFinal, run step state inputs = some (final, outputs) ∧
      run step twin (inputs.filter keep) = some (twinFinal, answersTo keep inputs outputs) := by
  have hequal : ∀ state twin input, relation state twin → condition state input →
      keep input = true → ∃ after twinAfter output twinOutput,
        step state input = some (after, output) ∧ step twin input = some (twinAfter, twinOutput) ∧
        output = twinOutput ∧ relation after twinAfter := by
    intro state twin input hrelation hcondition htest
    obtain ⟨after, twinAfter, output, heq, htwin, hafter⟩ :=
      hkeep state twin input hrelation hcondition htest
    exact ⟨after, twinAfter, output, output, heq, htwin, rfl, hafter⟩
  obtain ⟨final, outputs, twinFinal, twinOutputs, hrun, htwinRun, hall⟩ :=
    run_filter_agrees hequal hdrop hstart halong
  rw [List.forall₂_eq_eq_eq] at hall
  exact ⟨final, outputs, twinFinal, hrun, hall ▸ htwinRun⟩

end LiteMultiKV.Run
