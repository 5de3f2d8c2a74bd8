import ContractChecks.Proofs.Execution
import ContractChecks.Proofs.Synthesis
import ContractChecks.Proofs.WrapperCommands

/-!
# How a wrapper runs

The run of a synthesized wrapper, stated from the contract: which checks are made, in which order,
what a failed one raises, and what comes back if none fails.

* `Meaning.firstFalse`, `Meaning.firstFalseSignal`: the first of several checks that is false;
* `Report`: how often the checked method was invoked, and how the wrapper ended;
* `Meaning.expected`: the report that the contract asks for;
* `synthesize_run`: a synthesized wrapper runs as expected, for every meaning of its texts.
-/

namespace ContractChecks

def violationSignal (kind : ViolationKind) (message : Text) (cause : Option ErrorSignal) : Signal :=
  .error (.violation kind message cause)

def Signal.isViolation : Signal → Bool
  | .error (.violation _ _ _) => true
  | _ => false

section
variable {σ ρ : Type}

/-! ### checks one after the other -/

namespace Meaning
variable (M : Meaning σ ρ)

/-- the first check that is false; each is evaluated once its closures are declared, in the frame
that the checks before it leave -/
def firstFalse : List CheckPiece → Frame σ ρ → Option CheckPiece
  | [], _ => none
  | p :: ps, f =>
    let g := M.performAll p.piece.decls f
    if M.holds p.piece.text g then firstFalse ps g else some p

/-- the frame in which a signals clause is evaluated, if the caught signal has its type -/
def signalFrame (p : SignalPiece) (f : Frame σ ρ) : Option (Frame σ ρ) :=
  (f.caught.selectBy (M.typeNamed p.type)).map fun s =>
    M.performAll p.check.piece.decls { f with memory := M.bind p.var s f }

/-- the first signals clause that speaks of the caught signal and is false -/
def firstFalseSignal : List SignalPiece → Frame σ ρ → Option SignalPiece
  | [], _ => none
  | p :: ps, f =>
    match M.signalFrame p f with
    | none => firstFalseSignal ps f
    | some g =>
      if M.holds p.check.piece.text g then
        firstFalseSignal ps { f with memory := M.leave f.memory g.memory }
      else some p

end Meaning

/-! ### what a run has to come to -/

inductive Ending (ρ : Type) where
  | returned (values : List (Value ρ))
  | raised (s : Signal)

structure Report (ρ : Type) where
  calls : Nat
  ending : Ending ρ

/-- the report of a run; code that runs to its end returns nothing -/
def Progress.report : Progress σ ρ → Report ρ
  | .next f => ⟨f.calls, .returned []⟩
  | .returned f vs => ⟨f.calls, .returned vs⟩
  | .raised f s => ⟨f.calls, .raised s⟩

def Meaning.runWrapper (M : Meaning σ ρ) (w : Wrapper) (s : σ) : Report ρ :=
  (M.runAll (stmtCommands w.stmts) { memory := s }).report

/-- what a wrapper returns for the results of the checked method -/
def Signature.handOn (sig : Signature) (r : ρ) (e : Option ErrorSignal) : List (Value ρ) :=
  (if sig.resultType = [] then [] else [.result (some r)]) ++ if sig.errResult then [.err e] else []

/-- the texts that run before the precondition is checked -/
def WrapperTexts.prologue (t : WrapperTexts) (sig : Signature) (plan : Plan) : List Text :=
  stmtTexts (t.declarations sig plan ++ t.early.flatMap (captureStmts .captureEarly)
    ++ t.preExprs.flatMap (captureStmts .captureEarly))

/-- the texts that run between the check of the precondition and the invocation -/
def WrapperTexts.lateTexts (t : WrapperTexts) : List Text :=
  stmtTexts (t.late.flatMap (captureStmts .captureOldState))

namespace Meaning
variable (M : Meaning σ ρ)

/-- the end after the checked method returned without an error -/
def expectedNormal (t : WrapperTexts) (sig : Signature) (family : ViolationFamily)
    (f : Frame σ ρ) (r : ρ) : Ending ρ :=
  match M.firstFalse t.posts f with
  | some p => .raised (violationSignal family.normalPost p.message none)
  | none => .returned (sig.handOn r none)

/-- the end after the signal `s`: a violation passes, and a signal of which some clause is false
becomes a violation -/
def expectedSignal (t : WrapperTexts) (family : ViolationFamily) (f : Frame σ ρ) (s : Signal)
    (otherwise : Ending ρ) : Ending ρ :=
  if s.isViolation then .raised s
  else
    match M.firstFalseSignal t.signals { f with caught := s } with
    | some p => .raised (violationSignal family.exceptionalPost p.check.message s.toError?)
    | none => otherwise

/-- the end after the checked method: an error that is returned counts as a signal, but is returned
again -/
def expectedEnd (t : WrapperTexts) (sig : Signature) (family : ViolationFamily) (f : Frame σ ρ) :
    CallOutcome ρ → Ending ρ
  | .returned r e =>
    match if sig.errResult then e else none with
    | none => M.expectedNormal t sig family f r
    | some e => M.expectedSignal t family f (.error e) (.returned (sig.handOn r (some e)))
  | .raised s => M.expectedSignal t family f s.raised (.raised s.raised)

theorem expectedEnd_of_noError {t : WrapperTexts} {sig : Signature} {family : ViolationFamily}
    {f : Frame σ ρ} {r : ρ} {e : Option ErrorSignal} (h : sig.errResult → e = none) :
    M.expectedEnd t sig family f (.returned r e) = M.expectedNormal t sig family f r := by
  unfold expectedEnd
  by_cases hb : sig.errResult
  · simp only [hb, if_true, h hb]
  · simp only [hb]
    rfl

theorem expectedEnd_of_error {t : WrapperTexts} {sig : Signature} {family : ViolationFamily}
    {f : Frame σ ρ} {r : ρ} {e : ErrorSignal} (hb : sig.errResult) :
    M.expectedEnd t sig family f (.returned r (some e))
      = M.expectedSignal t family f (.error e) (.returned (sig.handOn r (some e))) := by
  unfold expectedEnd
  simp only [hb, if_true]

/-- the report a contract asks for: a false precondition is raised and the method not invoked; else
it is invoked once and its end decides -/
def expected (t : WrapperTexts) (sig : Signature) (plan : Plan) (family : ViolationFamily)
    (s : σ) : Report ρ :=
  let entry := M.performAll (t.prologue sig plan) { memory := s }
  match M.firstFalse t.pre.toList entry with
  | some p => ⟨0, .raised (violationSignal family.precondition p.message none)⟩
  | none =>
    let closures := t.pre.toList.flatMap fun p => p.piece.decls
    let before := M.performAll (closures ++ t.lateTexts) entry
    ⟨1, M.expectedEnd t sig family (M.invoke (WrapperTexts.invocation sig) before)
      (M.call before).2⟩

/-! ### runs of checks -/

theorem runAll_checkCommands (kind : ViolationKind) (p : CheckPiece) (f : Frame σ ρ) :
    M.runAll (checkCommands kind p) f
      = if M.holds p.piece.text (M.performAll p.piece.decls f) then
          .next (M.performAll p.piece.decls f)
        else .raised (M.performAll p.piece.decls f) (violationSignal kind p.message none) := by
  unfold checkCommands
  rw [runAll_append, runAll_plain, Progress.andThen_next, runAll_singleton]
  show Progress.ofRaising _ (check _ kind p.message) = _
  unfold check
  by_cases h : M.holds p.piece.text (M.performAll p.piece.decls f)
  · rw [if_pos h, if_pos h]
    rfl
  · rw [if_neg h, if_neg h]
    rfl

/-- a row of checks raises the violation of the first false one -/
theorem runAll_checks (kind : ViolationKind) (ps : List CheckPiece) (f : Frame σ ρ) :
    ∃ m, M.runAll (ps.flatMap (checkCommands kind)) f =
      match M.firstFalse ps f with
      | some p => .raised { f with memory := m } (violationSignal kind p.message none)
      | none => .next { f with memory := m } := by
  -- the frame is general, as each check runs in the one that the closures before it leave
  induction ps generalizing f with
  | nil => exact ⟨f.memory, rfl⟩
  | cons p ps ih =>
    obtain ⟨m, hm⟩ := M.performAll_eq p.piece.decls f
    rw [List.flatMap_cons, runAll_append, runAll_checkCommands, firstFalse]
    by_cases h : M.holds p.piece.text (M.performAll p.piece.decls f)
    · rw [if_pos h, Progress.andThen_next]
      simp only [h, if_true]
      rw [hm]
      exact ih { f with memory := m }
    · rw [if_neg h, Progress.andThen_raised]
      simp only [h]
      exact ⟨m, by rw [hm]; rfl⟩

/-- the block of a signals clause is run in the frame of the clause -/
theorem run_signal (kind : ViolationKind) (p : SignalPiece) (f : Frame σ ρ) :
    M.run (.select p.var p.type (signalCommands kind p)) f =
      match M.signalFrame p f with
      | none => .next f
      | some g =>
        if M.holds p.check.piece.text g then .next { f with memory := M.leave f.memory g.memory }
        else .raised g (violationSignal kind p.check.message f.caught.toError?) := by
  unfold run signalFrame
  cases f.caught.selectBy (M.typeNamed p.type) with
  | none => rfl
  | some s =>
    obtain ⟨m, hm⟩ := M.performAll_eq p.check.piece.decls { f with memory := M.bind p.var s f }
    simp only [Option.map_some, signalCommands]
    rw [runAll_append, runAll_plain, Progress.andThen_next, runAll_singleton, hm]
    show Progress.leaving M f.memory (.ofRaising _ (checkCause _ kind f.caught p.check.message)) = _
    unfold checkCause
    by_cases h : M.holds p.check.piece.text { f with memory := m }
    · rw [if_pos h, if_pos h]
      rfl
    · rw [if_neg h, if_neg h]
      rfl

/-- a row of signals clauses raises the violation of the first false one that speaks of the
caught signal -/
theorem runAll_signals (kind : ViolationKind) (ps : List SignalPiece) (f : Frame σ ρ) :
    ∃ m, M.runAll (ps.map fun p => .select p.var p.type (signalCommands kind p)) f =
      match M.firstFalseSignal ps f with
      | some p => .raised { f with memory := m }
          (violationSignal kind p.check.message f.caught.toError?)
      | none => .next { f with memory := m } := by
  induction ps generalizing f with
  | nil => exact ⟨f.memory, rfl⟩
  | cons p ps ih =>
    rw [List.map_cons, runAll, run_signal, firstFalseSignal]
    cases hg : M.signalFrame p f with
    | none => exact ih f
    | some g =>
      obtain ⟨s, _, rfl⟩ := Option.map_eq_some_iff.1 hg
      obtain ⟨m, hm⟩ := M.performAll_eq p.check.piece.decls { f with memory := M.bind p.var s f }
      simp only [hm]
      by_cases h : M.holds p.check.piece.text { f with memory := m }
      · simp only [h, if_true]
        exact ih { f with memory := M.leave f.memory m }
      · simp only [h]
        exact ⟨m, rfl⟩

end Meaning

/-! ### the invocation and its results -/

theorem assignedNames_both (call : Text) :
    assignedNames (Text.join ", " [resultVar, errorVar] ++ " = " ++ call)
      = [resultVar, errorVar] := rfl

theorem assignedNames_result (call : Text) :
    assignedNames (Text.join ", " [resultVar] ++ " = " ++ call) = [resultVar] := rfl

theorem assignedNames_error (call : Text) :
    assignedNames (Text.join ", " [errorVar] ++ " = " ++ call) = [errorVar] := rfl

theorem assignedNames_invocation {sig : Signature} (h : sig.assigned ≠ []) :
    assignedNames (WrapperTexts.invocation sig) = sig.assigned := by
  unfold WrapperTexts.invocation
  rw [if_neg (by simpa using h)]
  unfold Signature.assigned at h ⊢
  by_cases hr : sig.resultType = []
  · rw [if_pos hr] at h ⊢
    by_cases he : sig.errResult
    · rw [if_pos he]
      exact assignedNames_error _
    · rw [if_neg he] at h
      exact absurd rfl h
  · rw [if_neg hr]
    by_cases he : sig.errResult
    · rw [if_pos he]
      exact assignedNames_both _
    · rw [if_neg he]
      exact assignedNames_result _

theorem values_assigned (sig : Signature) (f : Frame σ ρ) (r : ρ) (e : Option ErrorSignal)
    (hr : sig.resultType ≠ [] → f.result = some r) (he : sig.errResult → f.err = e) :
    f.values (listedNames (Text.join ", " sig.assigned)) = sig.handOn r e := by
  unfold Signature.assigned Signature.handOn
  by_cases h1 : sig.resultType = []
  · by_cases h2 : sig.errResult
    · rw [if_pos h1, if_pos h2, if_pos h1, if_pos h2, ← he h2]
      rfl
    · rw [if_pos h1, if_neg h2, if_pos h1, if_neg h2]
      rfl
  · by_cases h2 : sig.errResult
    · rw [if_neg h1, if_pos h2, if_neg h1, if_pos h2, ← he h2, ← hr h1]
      rfl
    · rw [if_neg h1, if_neg h2, if_neg h1, if_neg h2, ← hr h1]
      rfl

namespace Meaning
variable (M : Meaning σ ρ)

/-- after a return, the variables hold the results that the signature binds -/
theorem invoke_returned (sig : Signature) {f : Frame σ ρ} {m : σ} {r : ρ} {e : Option ErrorSignal}
    (h : M.call f = (m, .returned r e)) :
    let g := M.invoke (WrapperTexts.invocation sig) f
    g.caught = .none ∧ g.calls = f.calls + 1 ∧ (sig.resultType ≠ [] → g.result = some r)
      ∧ (sig.errResult → g.err = e) := by
  unfold invoke
  rw [h]
  refine ⟨rfl, rfl, ?_, ?_⟩
  · intro hr
    have hmem : resultVar ∈ sig.assigned := by
      unfold Signature.assigned
      rw [if_neg hr]
      exact List.mem_cons_self
    show (if resultVar ∈ assignedNames (WrapperTexts.invocation sig) then some r else f.result) = _
    rw [assignedNames_invocation (List.ne_nil_of_mem hmem), if_pos hmem]
  · intro he
    have hmem : errorVar ∈ sig.assigned := by
      unfold Signature.assigned
      rw [if_pos he]
      exact List.mem_append_right _ List.mem_cons_self
    show (if errorVar ∈ assignedNames (WrapperTexts.invocation sig) then e else f.err) = _
    rw [assignedNames_invocation (List.ne_nil_of_mem hmem), if_pos hmem]

theorem invoke_raised (text : Text) {f : Frame σ ρ} {m : σ} {s : Signal}
    (h : M.call f = (m, .raised s)) :
    M.invoke text f = { f with memory := m, calls := f.calls + 1, caught := s.raised } := by
  unfold invoke
  rw [h]

end Meaning

/-! ### the guard and its branches -/

theorem Signal.raised_of_isNone {s : Signal} (h : s.isNone = false) : s.raised = s := by
  cases s with
  | none => cases h
  | text t => rfl
  | number n => rfl
  | truth b => rfl
  | error e => rfl

theorem propagate_of_isViolation {s : Signal} (h : s.isViolation) : propagate s = .error s := by
  unfold Signal.isViolation at h
  split at h
  · rfl
  · cases h

theorem propagate_of_not_isViolation {s : Signal} (h : ¬s.isViolation) : propagate s = .ok () := by
  unfold propagate
  split
  · exact absurd rfl h
  · rfl

namespace Meaning
variable (M : Meaning σ ρ)

/-- the rethrow raises the caught signal unless it was returned as an error -/
theorem run_rethrow (errResult : Bool) {f : Frame σ ρ} (hf : f.caught.isNone = false) :
    M.run (if errResult then .when .noError [.raise] else .raise) f
      = if errResult && f.err.isSome then .next f else .raised f f.caught := by
  have hraise : M.run .raise f = .raised f f.caught := by
    show Progress.raised f f.caught.raised = _
    rw [Signal.raised_of_isNone hf]
  cases errResult with
  | false => exact hraise
  | true =>
    show (if Test.noError.holds f then M.runAll [.raise] f else .next f) = _
    rw [runAll_singleton, hraise]
    cases he : f.err with
    | none => simp [Test.holds, he]
    | some e => simp [Test.holds, he]

theorem runAll_exceptionalBranch {t : WrapperTexts} (hx : t.xpostCode = []) (sig : Signature)
    (family : ViolationFamily) {f : Frame σ ρ} (hf : f.caught.isNone = false) :
    ∃ m, M.runAll (stmtCommands (t.exceptionalBranch sig family)) f =
      if f.caught.isViolation then .raised { f with memory := m } f.caught
      else
        match M.firstFalseSignal t.signals f with
        | some p => .raised { f with memory := m }
            (violationSignal family.exceptionalPost p.check.message f.caught.toError?)
        | none =>
          if sig.errResult && f.err.isSome then .next { f with memory := m }
          else .raised { f with memory := m } f.caught := by
  rw [stmtCommands_exceptionalBranch hx, runAll]
  show ∃ m, (Progress.ofRaising f (propagate f.caught)).andThen _ = _
  by_cases hv : f.caught.isViolation
  · rw [propagate_of_isViolation hv]
    refine ⟨f.memory, ?_⟩
    rw [if_pos hv]
    rfl
  · rw [propagate_of_not_isViolation hv]
    show ∃ m, M.runAll _ f = _
    obtain ⟨m, hm⟩ := M.runAll_signals family.exceptionalPost t.signals f
    refine ⟨m, ?_⟩
    rw [runAll_append, hm, if_neg hv]
    cases M.firstFalseSignal t.signals f with
    | some p => rfl
    | none =>
      show M.runAll _ { f with memory := m } = _
      rw [runAll_singleton]
      exact M.run_rethrow sig.errResult (f := { f with memory := m }) hf

theorem runAll_normalBranch (t : WrapperTexts) (family : ViolationFamily) (f : Frame σ ρ) :
    ∃ m, M.runAll (stmtCommands (t.normalBranch family)) f =
      match M.firstFalse t.posts f with
      | some p => .raised { f with memory := m } (violationSignal family.normalPost p.message none)
      | none => .next { f with memory := m } := by
  unfold WrapperTexts.normalBranch
  rw [stmtCommands_checks]
  exact M.runAll_checks family.normalPost t.posts f

/-- the caught signal after the guard: a returned error counts if the signature binds it -/
def settle (errResult : Bool) (f : Frame σ ρ) : Frame σ ρ :=
  if errResult && Test.onlyError.holds f then
    { f with caught := (f.err.map Signal.error).getD .none }
  else f

/-- the run of a guard: the invocation, and the branch for what was caught -/
theorem runAll_guardStmt (t : WrapperTexts) (sig : Signature) (family : ViolationFamily)
    (f : Frame σ ρ) :
    M.runAll (t.guardStmt sig family).commands f =
      let g := settle sig.errResult (M.invoke (WrapperTexts.invocation sig) f)
      if g.caught.isNone then M.runAll (stmtCommands (t.normalBranch family)) g
      else M.runAll (stmtCommands (t.exceptionalBranch sig family)) g := by
  unfold WrapperTexts.guardStmt Stmt.commands
  simp only
  have hinvoke : M.runAll (guardCommands
      { phase := .invokeMethod, kind := .guard, text := WrapperTexts.invocation sig
        errorResult := sig.errResult }) f
      = .next (settle sig.errResult (M.invoke (WrapperTexts.invocation sig) f)) := by
    unfold guardCommands settle
    cases sig.errResult with
    | false => rfl
    | true =>
      show M.runAll [.when .onlyError [.catchError]] (M.invoke (WrapperTexts.invocation sig) f) = _
      rw [runAll_singleton]
      generalize M.invoke (WrapperTexts.invocation sig) f = g
      show (if Test.onlyError.holds g then M.runAll [.catchError] g else .next g) = _
      cases Test.onlyError.holds g <;> rfl
  rw [runAll_append, hinvoke, Progress.andThen_next, runAll_singleton]
  generalize settle sig.errResult (M.invoke (WrapperTexts.invocation sig) f) = g
  by_cases hn : (t.normalBranch family).isEmpty
  · -- without postconditions there is no branch for a normal return
    rw [if_pos hn, List.isEmpty_iff.1 hn]
    show (if Test.caught.holds g then M.runAll _ g else .next g) = _
    cases hc : g.caught.isNone <;> simp [Test.holds, hc, runAll, stmtCommands]
  · rw [if_neg hn]
    rfl

theorem report_return (sig : Signature) {f : Frame σ ρ} {r : ρ} {e : Option ErrorSignal}
    (hr : sig.resultType ≠ [] → f.result = some r) (he : sig.errResult → f.err = e) :
    (M.runAll (stmtCommands (WrapperTexts.returnStmts sig)) f).report
      = ⟨f.calls, .returned (sig.handOn r e)⟩ := by
  have hvalues := values_assigned sig f r e hr he
  unfold WrapperTexts.returnStmts
  by_cases h : sig.assigned.isEmpty
  · rw [if_pos h]
    rw [List.isEmpty_iff.1 h] at hvalues
    rw [← hvalues]
    rfl
  · rw [if_neg h, ← hvalues]
    rfl

/-- the report once a frame is settled with nothing caught -/
theorem report_normal (t : WrapperTexts) (sig : Signature) (family : ViolationFamily)
    {f : Frame σ ρ} {r : ρ} (hr : sig.resultType ≠ [] → f.result = some r)
    (he : sig.errResult → f.err = none) :
    ((M.runAll (stmtCommands (t.normalBranch family)) f).andThen
        (M.runAll (stmtCommands (WrapperTexts.returnStmts sig)))).report
      = ⟨f.calls, M.expectedNormal t sig family f r⟩ := by
  obtain ⟨m, hm⟩ := M.runAll_normalBranch t family f
  rw [hm]
  unfold expectedNormal
  cases M.firstFalse t.posts f with
  | some p => rfl
  | none => exact M.report_return sig (f := { f with memory := m }) hr he

/-- the report once a frame is settled with the signal caught; `otherwise` is what the rethrow and
the return come to -/
theorem report_signal {t : WrapperTexts} (hx : t.xpostCode = []) (sig : Signature)
    (family : ViolationFamily) {f : Frame σ ρ} (hf : f.caught.isNone = false) {otherwise : Ending ρ}
    (h : ∀ m, ((if sig.errResult && f.err.isSome then .next { f with memory := m }
        else .raised { f with memory := m } f.caught : Progress σ ρ).andThen
          (M.runAll (stmtCommands (WrapperTexts.returnStmts sig)))).report
      = ⟨f.calls, otherwise⟩) :
    ((M.runAll (stmtCommands (t.exceptionalBranch sig family)) f).andThen
        (M.runAll (stmtCommands (WrapperTexts.returnStmts sig)))).report
      = ⟨f.calls, M.expectedSignal t family f f.caught otherwise⟩ := by
  obtain ⟨m, hm⟩ := M.runAll_exceptionalBranch hx sig family hf
  rw [hm]
  unfold expectedSignal
  by_cases hv : f.caught.isViolation
  · rw [if_pos hv, if_pos hv]
    rfl
  · rw [if_neg hv, if_neg hv]
    cases hp : M.firstFalseSignal t.signals f with
    | some p => rfl
    | none => exact h m

/-- from the invocation on, a wrapper ends as the outcome of the checked method demands -/
theorem report_guard {t : WrapperTexts} (hx : t.xpostCode = []) (sig : Signature)
    (family : ViolationFamily) {f : Frame σ ρ} (hf : f.err = none) :
    ((M.runAll (t.guardStmt sig family).commands f).andThen
        (M.runAll (stmtCommands (WrapperTexts.returnStmts sig)))).report
      = ⟨f.calls + 1, M.expectedEnd t sig family (M.invoke (WrapperTexts.invocation sig) f)
          (M.call f).2⟩ := by
  rw [runAll_guardStmt]
  simp only
  cases hcall : M.call f with
  | mk m out =>
    cases out with
    | returned r e =>
      obtain ⟨hc, hcalls, hr, he⟩ := M.invoke_returned sig hcall
      generalize M.invoke (WrapperTexts.invocation sig) f = g at hc hcalls hr he ⊢
      rw [← hcalls]
      -- an error that the signature does not bind is not seen, and so counts as none
      by_cases hb : sig.errResult
      · have herr := he hb
        cases e with
        | none =>
          have hs : settle sig.errResult g = g := by simp [settle, Test.holds, herr]
          rw [hs, hc, M.expectedEnd_of_noError fun _ => rfl]
          exact M.report_normal t sig family hr he
        | some x =>
          -- the error is caught, but is still in its variable, so nothing is raised again
          have hs : settle sig.errResult g = { g with caught := .error x } := by
            simp [settle, Test.holds, hb, hc, herr, Signal.isNone]
          rw [hs, M.expectedEnd_of_error hb]
          refine M.report_signal hx sig family (f := { g with caught := .error x }) rfl ?_
          intro m'
          have hsome : (sig.errResult && g.err.isSome) = true := by simp [hb, herr]
          simp only [hsome, if_true]
          exact M.report_return sig (f := { g with memory := m', caught := .error x }) hr he
      · have hs : settle sig.errResult g = g := by simp [settle, hb]
        rw [hs, hc, M.expectedEnd_of_noError fun h => absurd h hb]
        exact M.report_normal t sig family hr fun h => absurd h hb
    | raised s =>
      -- the error variable was empty before the call, and a signal assigns nothing
      rw [M.invoke_raised _ hcall]
      have hnone : s.raised.isNone = false := s.isNone_raised
      have hs : settle sig.errResult { f with memory := m, calls := f.calls + 1, caught := s.raised }
          = { f with memory := m, calls := f.calls + 1, caught := s.raised } := by
        simp [settle, Test.holds, hf]
      rw [hs]
      simp only [hnone]
      refine M.report_signal hx sig family
        (f := { f with memory := m, calls := f.calls + 1, caught := s.raised }) hnone ?_
      intro m'
      have hsome : (sig.errResult && f.err.isSome) = false := by simp [hf]
      simp only [hsome]
      rfl

theorem report_stmts {t : WrapperTexts} (hx : t.xpostCode = []) (sig : Signature) (plan : Plan)
    (family : ViolationFamily) (s : σ) :
    (M.runAll (stmtCommands (t.stmts sig plan family)) { memory := s }).report
      = M.expected t sig plan family s := by
  have hhead : stmtCommands (t.declarations sig plan
      ++ t.early.flatMap (captureStmts .captureEarly)
      ++ t.preExprs.flatMap (captureStmts .captureEarly)) = (t.prologue sig plan).map .plain :=
    stmtCommands_of_plain (plainStmts_append (plainStmts_append
      (plainStmts_declarations t sig plan) (plainStmts_captures _ _)) (plainStmts_captures _ _))
  have hlate : stmtCommands (t.late.flatMap (captureStmts .captureOldState))
      = t.lateTexts.map .plain := stmtCommands_of_plain (plainStmts_captures _ _)
  have hguard : stmtCommands [t.guardStmt sig family] = (t.guardStmt sig family).commands :=
    List.append_nil _
  -- from the late captures on
  have hrest : ∀ f : Frame σ ρ, f.err = none → f.calls = 0 →
      ((((Progress.next f).andThen (M.runAll (t.lateTexts.map .plain))).andThen
        (M.runAll (t.guardStmt sig family).commands)).andThen
          (M.runAll (stmtCommands (WrapperTexts.returnStmts sig)))).report
        = ⟨1, M.expectedEnd t sig family
            (M.invoke (WrapperTexts.invocation sig) (M.performAll t.lateTexts f))
            (M.call (M.performAll t.lateTexts f)).2⟩ := by
    intro f herr hcalls
    obtain ⟨m, hm⟩ := M.performAll_eq t.lateTexts f
    rw [Progress.andThen_next, runAll_plain, hm, Progress.andThen_next,
      M.report_guard hx sig family (f := { f with memory := m }) herr, hcalls]
  unfold WrapperTexts.stmts
  rw [stmtCommands_append, stmtCommands_append, stmtCommands_append, stmtCommands_append, hhead,
    hlate, hguard, stmtCommands_checks, runAll_append, runAll_append, runAll_append, runAll_append,
    runAll_plain, Progress.andThen_next]
  unfold expected
  obtain ⟨m, hm⟩ := M.performAll_eq (t.prologue sig plan) { memory := s }
  rw [hm]
  cases t.pre with
  | none => exact hrest { memory := m } rfl rfl
  | some p =>
    obtain ⟨m', hm'⟩ := M.performAll_eq p.piece.decls (ρ := ρ) { memory := m }
    simp only [Option.toList_some, List.flatMap_cons, List.flatMap_nil, List.append_nil, firstFalse]
    rw [runAll_checkCommands, performAll_append, hm']
    by_cases h : M.holds p.piece.text { memory := m' }
    · rw [if_pos h, if_pos h]
      exact hrest { memory := m' } rfl rfl
    · rw [if_neg h, if_neg h]
      rfl

end Meaning

/-- **A synthesized wrapper runs as its contract demands.**  Its code is the text of its commands,
and they run as expected for every meaning of the texts in it: with a false precondition the
violation is raised and the method never invoked; else it is invoked once, the first false
postcondition for its outcome is raised as a violation, and if there is none the outcome itself is
handed on. -/
theorem synthesize_run {c : Contract} {mode : Mode} {oracle : Oracle} {w : Wrapper}
    (h : synthesize c mode oracle = .ok w) (hx : c.xpostCode = []) :
    ∃ family sig plan t, SynthesisSteps c mode oracle w family sig plan t
      ∧ (∀ style, w.source style = .ok (w.sourceOf style (stmtCommands w.stmts)))
      ∧ ∀ (σ ρ : Type) (M : Meaning σ ρ) (s : σ),
          M.runWrapper w s = M.expected t sig plan family s := by
  obtain ⟨family, sig, plan, t, hsteps⟩ := synthesize_eq_ok h
  have hcode : t.xpostCode = [] := by rw [hsteps.texts.xpostCode, hx]; rfl
  refine ⟨family, sig, plan, t, hsteps, ?_, ?_⟩
  · apply source_eq_sourceOf
    rw [hsteps.wrapper_eq]
    exact knownStmts_stmts t sig plan family
  · intro σ ρ M s
    unfold Meaning.runWrapper
    rw [hsteps.wrapper_eq]
    exact M.report_stmts hcode sig plan family s

end

/-- a method that gives a number and an error, with a precondition that reads old state, a
postcondition for each outcome and a quantifier -/
def popContract : Contract where
  method := {
    name := "Pop", owner := "Stack", receiver := "s", pointerReceiver := true
    returnType := "int", returnsError := true, visibility := .of .pub }
  pre := .set .empty 0 "n > 0"
  post := .set .empty 0 "(\\forall i int; 0 <= i && i < n; s.at(i) > 0)"
  xpost := .set .empty 0 [⟨"*EmptyError", "e", "e.Len == n"⟩]
  oldVars := .set .empty 0 [⟨"n int/n = len(s.items)"⟩]

theorem synthesize_run_popContract :
    ∃ w, synthesize popContract .clientAware (Oracle.scanning []) = .ok w
      ∧ popContract.xpostCode = []
      ∧ ∃ family sig plan t,
          SynthesisSteps popContract .clientAware (Oracle.scanning []) w family sig plan t
            ∧ (∀ style, w.source style = .ok (w.sourceOf style (stmtCommands w.stmts)))
            ∧ ∀ (σ ρ : Type) (M : Meaning σ ρ) (s : σ),
                M.runWrapper w s = M.expected t sig plan family s := by
  have hok : (synthesize popContract .clientAware (Oracle.scanning [])).isOk := by
    -- the kernel is slow in reading the characters of a literal, so they are put in its place
    unfold popContract
    repeat rw [String.toList_ofList]
    decide +kernel
  cases h : synthesize popContract .clientAware (Oracle.scanning []) with
  | error e => rw [h] at hok; cases hok
  | ok w => exact ⟨w, rfl, rfl, synthesize_run h rfl⟩

end ContractChecks
