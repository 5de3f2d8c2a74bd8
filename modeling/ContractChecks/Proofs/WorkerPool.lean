import Mathlib.Data.List.Perm.Basic
import Mathlib.Logic.Function.Basic
import Mathlib.Logic.Relation
import ContractChecks.Module.Load

/-!
# Workers

Jobs are done by workers that share a table of wrappers and a list of results.  The jobs are handed out
in order, but a worker may take any time for its job, so they end in any order.

* `Pool.Step`: a worker takes the next job, or ends one and adds what came of it;
* `Pool.Follows.step`, `Pool.Follows.steps`: what the workers have added is what came of the jobs they
  have ended, in the order in which they have ended them;
* `Pool.finished_follows`: in the end that is what came of all jobs, in some order;
* `Pool.exists_finished`: one worker is enough to end all jobs.
-/

namespace ContractChecks

/-- the jobs that wait, those in the hands of workers, and what the workers share -/
structure Pool where
  waiting : List Job
  running : List Job := []
  wrappers : PackageInfo → List CheckedMethod := fun _ => []
  results : List Result := []

namespace Pool

def add (s : Pool) : Outcome → Pool
  | .checked p c => { s with wrappers := Function.update s.wrappers p (s.wrappers p ++ [c]) }
  | .failed r => { s with results := s.results ++ [r] }

/-- one step of a pool with the given number of workers -/
inductive Step (workers : Nat) (run : Job → Outcome) : Pool → Pool → Prop
  | take {s : Pool} {j : Job} {js : List Job} (hwaiting : s.waiting = j :: js)
      (hfree : s.running.length < workers) :
      Step workers run s { s with waiting := js, running := s.running ++ [j] }
  | finish {s : Pool} {before after : List Job} {j : Job} (hrunning : s.running = before ++ j :: after) :
      Step workers run s (add { s with running := before ++ after } (run j))

def Run (workers : Nat) (run : Job → Outcome) : Pool → Pool → Prop :=
  Relation.ReflTransGen (Step workers run)

/-- every job has been ended -/
def Finished (s : Pool) : Prop := s.waiting = [] ∧ s.running = []

end Pool

def Outcome.methodsAt (os : List Outcome) (p : PackageInfo) : List CheckedMethod :=
  ((os.filterMap Outcome.checked?).filter fun e => e.1 = p).map Prod.snd

namespace Pool

variable {workers : Nat} {run : Job → Outcome} {jobs done : List Job} {reported : List Result}
  {s t : Pool}

/-- the pool after the jobs `done` have been ended in this order -/
structure Follows (run : Job → Outcome) (jobs : List Job) (reported : List Result) (done : List Job)
    (s : Pool) : Prop where
  perm : (done ++ (s.running ++ s.waiting)).Perm jobs
  wrappers : ∀ p, s.wrappers p = Outcome.methodsAt (done.map run) p
  results : s.results = reported ++ (done.map run).filterMap Outcome.result?

theorem follows_start (run : Job → Outcome) (jobs : List Job) (reported : List Result) :
    Follows run jobs reported [] { waiting := jobs, results := reported } where
  perm := .refl jobs
  wrappers _ := rfl
  results := (List.append_nil reported).symm

theorem running_add (s : Pool) (o : Outcome) : (s.add o).running = s.running := by
  cases o <;> rfl

theorem waiting_add (s : Pool) (o : Outcome) : (s.add o).waiting = s.waiting := by
  cases o <;> rfl

theorem wrappers_add (s : Pool) (o : Outcome) (p : PackageInfo) :
    (s.add o).wrappers p = s.wrappers p ++ Outcome.methodsAt [o] p := by
  cases o with
  | failed r => exact (List.append_nil _).symm
  | checked q c =>
    show Function.update s.wrappers q (s.wrappers q ++ [c]) p = _
    by_cases h : p = q
    · subst h
      rw [Function.update_self]
      simp [Outcome.methodsAt, Outcome.checked?]
    · rw [Function.update_of_ne h]
      simp [Outcome.methodsAt, Outcome.checked?, Ne.symm h]

theorem results_add (s : Pool) (o : Outcome) :
    (s.add o).results = s.results ++ o.result?.toList := by
  cases o with
  | failed r => rfl
  | checked q c => exact (List.append_nil _).symm

theorem methodsAt_append (os os' : List Outcome) (p : PackageInfo) :
    Outcome.methodsAt (os ++ os') p = Outcome.methodsAt os p ++ Outcome.methodsAt os' p := by
  unfold Outcome.methodsAt
  rw [List.filterMap_append, List.filter_append, List.map_append]

theorem Follows.step (hs : Follows run jobs reported done s) (h : Step workers run s t) :
    ∃ done', Follows run jobs reported done' t := by
  cases h with
  | @take j js hwaiting hfree =>
    refine ⟨done, ?_, hs.wrappers, hs.results⟩
    have hperm := hs.perm
    rw [hwaiting] at hperm
    simpa using hperm
  | @finish before after j hrunning =>
    refine ⟨done ++ [j], ?_, fun p => ?_, ?_⟩
    · have hperm := hs.perm
      rw [hrunning] at hperm
      rw [running_add, waiting_add]
      refine List.Perm.trans ?_ hperm
      simp only [List.append_assoc, List.cons_append, List.nil_append]
      have hmiddle : (j :: (before ++ (after ++ s.waiting))).Perm (before ++ j :: (after ++ s.waiting)) :=
        List.perm_middle.symm
      exact hmiddle.append_left done
    · rw [wrappers_add, List.map_append, methodsAt_append]
      exact congrArg (· ++ _) (hs.wrappers p)
    · rw [results_add, List.map_append, List.filterMap_append, ← List.append_assoc]
      refine congrArg₂ (· ++ ·) hs.results ?_
      show _ = [run j].filterMap Outcome.result?
      cases run j <;> rfl

theorem Follows.steps (hs : Follows run jobs reported done s) (h : Run workers run s t) :
    ∃ done', Follows run jobs reported done' t := by
  induction h with
  | refl => exact ⟨done, hs⟩
  | tail _ hstep ih =>
    obtain ⟨done', ht⟩ := ih
    exact ht.step hstep

/-- what the workers have added when all jobs are ended -/
theorem finished_follows (h : Run workers run { waiting := jobs, results := reported } t)
    (ht : t.Finished) : ∃ done, done.Perm jobs ∧ Follows run jobs reported done t := by
  obtain ⟨done, hdone⟩ := (follows_start run jobs reported).steps h
  refine ⟨done, ?_, hdone⟩
  have hperm := hdone.perm
  rw [ht.1, ht.2] at hperm
  simpa using hperm

/-- a worker can always take the next job and end it -/
theorem exists_finished (hworkers : 0 < workers) (run : Job → Outcome) (jobs : List Job)
    (reported : List Result) :
    ∃ t, Run workers run { waiting := jobs, results := reported } t ∧ t.Finished := by
  suffices h : ∀ s : Pool, s.running = [] → ∃ t, Run workers run s t ∧ t.Finished from h _ rfl
  intro s
  induction hjobs : s.waiting generalizing s with
  | nil => exact fun hrunning => ⟨s, .refl, hjobs, hrunning⟩
  | cons j js ih =>
    intro hrunning
    have htake : Step workers run s { s with waiting := js, running := [j] } := by
      have hstep := @Step.take workers run s j js hjobs (by rw [hrunning]; exact hworkers)
      rwa [hrunning] at hstep
    have hfinish : Step workers run { s with waiting := js, running := [j] }
        (add { s with waiting := js, running := [] } (run j)) :=
      @Step.finish workers run { s with waiting := js, running := [j] } [] [] j rfl
    obtain ⟨t, ht, hdone⟩ := ih (add { s with waiting := js, running := [] } (run j))
      (waiting_add _ _) (running_add _ _)
    exact ⟨t, .head htake (.head hfinish ht), hdone⟩

end Pool

end ContractChecks
