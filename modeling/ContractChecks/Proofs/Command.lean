import ContractChecks.Wrapper.Code

/-!
# Commands

The code of a wrapper as a small imperative language: what the text of each statement says, with
its tests and branches as data.

* `Command`: one line of code, or a conditional block of lines;
* `Command.source`, `commandsSource`: the text of commands;
* `Stmt.commands`, `stmtCommands`: the commands a statement stands for;
* `blockSource_eq`: the text of statements of known kinds is the text of their commands.
-/

namespace ContractChecks

/-- what the code of a wrapper asks about the caught signal and the error result -/
inductive Test where
  /-- a signal was caught -/
  | caught
  /-- no signal was caught -/
  | notCaught
  /-- no signal was caught, but an error was returned -/
  | onlyError
  /-- no error was returned -/
  | noError
deriving DecidableEq, Repr

inductive Command where
  /-- a declaration, a capture, a closure or other code, as it is written -/
  | plain (text : Text)
  | check (pred : Text) (kind : ViolationKind) (message : Text)
  /-- a check that records the caught signal -/
  | checkCause (pred : Text) (kind : ViolationKind) (message : Text)
  /-- runs an invocation under a guard, which binds the caught signal -/
  | invoke (text : Text)
  /-- the returned error counts as caught -/
  | catchError
  | propagate
  /-- raises the caught signal -/
  | raise
  | return (text : Text)
  | when (test : Test) (body : List Command)
  | branch (test : Test) (body otherwise : List Command)
  /-- runs a body if the caught signal has a type, with the selected signal bound to a variable -/
  | select (var type : Text) (body : List Command)
deriving Repr

/-! ### text -/

def Test.source : Test → Text
  | .caught => caughtVar ++ " != nil"
  | .notCaught => caughtVar ++ " == nil"
  | .onlyError => caughtVar ++ " == nil && " ++ errorVar ++ " != nil"
  | .noError => errorVar ++ " == nil"

def Test.head (t : Test) : Text := "if " ++ t.source

/-- the head of a block that is run for the signals of one type -/
def selectHead (style : CodeStyle) (var type : Text) : Text :=
  selectSource style { kind := .select, var := var, type := type }

def Command.line (style : CodeStyle) : Command → Text
  | .plain s => s
  | .check p k m => style.call "Check" [p, style.support k.text, m.quote]
  | .checkCause p k m => style.call "CheckCause" [p, style.support k.text, caughtVar, m.quote]
  | .invoke s =>
    caughtVar ++ " := " ++ style.call "Guard" [bracedSource "func()" (lineSource s)]
  | .catchError => caughtVar ++ " = " ++ errorVar
  | .propagate => style.call "Propagate" [caughtVar]
  | .raise => "panic(" ++ caughtVar ++ ")"
  | .return s => "return " ++ s
  | .when _ _ | .branch _ _ _ | .select _ _ _ => []

mutual

def Command.source (style : CodeStyle) : Command → Text
  | .when t b => bracedSource t.head (commandsSource style b)
  | .branch t b e =>
    bracedSource t.head (commandsSource style b) ++ bracedSource " else" (commandsSource style e)
  | .select v t b => bracedSource (selectHead style v t) (commandsSource style b)
  | c => c.line style

def commandsSource (style : CodeStyle) : List Command → Text
  | [] => []
  | c :: cs => lineSource (c.source style) ++ commandsSource style cs

end

theorem commandsSource_append (style : CodeStyle) (cs ds : List Command) :
    commandsSource style (cs ++ ds) = commandsSource style cs ++ commandsSource style ds := by
  induction cs with
  | nil => rfl
  | cons c cs ih =>
    show lineSource (c.source style) ++ commandsSource style (cs ++ ds)
      = lineSource (c.source style) ++ commandsSource style cs ++ commandsSource style ds
    rw [ih, List.append_assoc]

/-! ### commands of statements -/

/-- the invocation of a guard, after which a returned error counts as caught -/
def guardCommands (a : Action) : List Command :=
  .invoke a.text :: if a.errorResult then [.when .onlyError [.catchError]] else []

/-- the caught signal is raised unless it was returned as an error -/
def rethrowCommand (a : Action) : Command :=
  if a.errorResult then .when .noError [.raise] else .raise

mutual

/-- the commands of a statement; a statement of unknown kind has none -/
def Stmt.commands : Stmt → List Command
  | .node a body normal exceptional =>
    match a.kind with
    | .declare | .capture | .support | .code => [.plain a.text]
    | .check => [.check a.text a.signal a.message]
    | .checkCause => [.checkCause a.text a.signal a.message]
    | .propagate => [.propagate]
    | .rethrow => [rethrowCommand a]
    | .return => [.return a.text]
    | .select => [.select a.var a.type (stmtCommands body)]
    | .guard =>
      guardCommands a
        ++ [if normal.isEmpty then .when .caught (stmtCommands exceptional)
          else .branch .notCaught (stmtCommands normal) (stmtCommands exceptional)]
    | .unknown _ => []

def stmtCommands : List Stmt → List Command
  | [] => []
  | s :: ss => s.commands ++ stmtCommands ss

end

theorem stmtCommands_append (ss ts : List Stmt) :
    stmtCommands (ss ++ ts) = stmtCommands ss ++ stmtCommands ts := by
  induction ss with
  | nil => rfl
  | cons s ss ih =>
    show s.commands ++ stmtCommands (ss ++ ts) = s.commands ++ stmtCommands ss ++ stmtCommands ts
    rw [ih, List.append_assoc]

theorem stmtCommands_flatMap {α : Type} (l : List α) (g : α → List Stmt) :
    stmtCommands (l.flatMap g) = l.flatMap fun x => stmtCommands (g x) := by
  induction l with
  | nil => rfl
  | cons x l ih => rw [List.flatMap_cons, stmtCommands_append, ih, List.flatMap_cons]

/-! ### the text of statements is the text of their commands -/

def StmtKind.isKnown : StmtKind → Bool
  | .unknown _ => false
  | _ => true

theorem lineSource_append (s t : Text) : lineSource (s ++ t) = s ++ lineSource t :=
  List.append_assoc s t _

theorem commandsSource_singleton (style : CodeStyle) (c : Command) :
    commandsSource style [c] = lineSource (c.source style) := List.append_nil _

theorem guardSource_eq (style : CodeStyle) (a : Action) :
    guardSource style a = commandsSource style (guardCommands a) := by
  unfold guardSource guardCommands
  by_cases h : a.errorResult
  · rw [if_pos h, if_pos h, commandsSource, commandsSource_singleton]
    show _ = _ ++ lineSource (bracedSource Test.onlyError.head (commandsSource style [.catchError]))
    rw [commandsSource_singleton]
    rfl
  · rw [if_neg h, if_neg h, commandsSource_singleton]
    rfl

theorem lineSource_rethrowSource (style : CodeStyle) (a : Action) :
    lineSource (rethrowSource a) = commandsSource style [rethrowCommand a] := by
  unfold rethrowSource rethrowCommand
  rw [commandsSource_singleton]
  by_cases h : a.errorResult
  · rw [if_pos h, if_pos h]
    show _ = lineSource (bracedSource Test.noError.head (commandsSource style [.raise]))
    rw [commandsSource_singleton]
    rfl
  · rw [if_neg h, if_neg h]
    rfl

mutual

theorem Stmt.source_eq (style : CodeStyle) :
    ∀ s : Stmt, (∀ a ∈ s.actions, a.kind.isKnown) →
      ∃ x, s.source style = .ok x ∧ lineSource x = commandsSource style s.commands
  | .node a body normal exceptional, h => by
    have hb := blockSource_eq style body fun b hb => h b (by simp [Stmt.actions, hb])
    have hn := blockSource_eq style normal fun b hb => h b (by simp [Stmt.actions, hb])
    have he := blockSource_eq style exceptional fun b hb => h b (by simp [Stmt.actions, hb])
    have hk : a.kind.isKnown := h a (by simp [Stmt.actions])
    -- a statement without statements inside it is one command
    have simple : ∀ c : Command, simpleSource style a = .ok (c.source style) →
        ∃ x, simpleSource style a = .ok x ∧ lineSource x = commandsSource style [c] :=
      fun c hc => ⟨_, hc, (commandsSource_singleton style c).symm⟩
    rw [Stmt.source, Stmt.commands]
    cases hkind : a.kind with
    | guard =>
      by_cases hemp : normal.isEmpty
      · simp only [hemp, if_true, he]
        refine ⟨_, rfl, ?_⟩
        rw [lineSource_append, guardSource_eq, commandsSource_append, commandsSource_singleton]
        rfl
      · simp only [hemp, hn, he]
        refine ⟨_, rfl, ?_⟩
        rw [List.append_assoc, lineSource_append, guardSource_eq, commandsSource_append,
          commandsSource_singleton]
        rfl
    | select =>
      simp only [hb]
      refine ⟨_, rfl, ?_⟩
      rw [commandsSource_singleton]
      rfl
    | rethrow =>
      exact ⟨rethrowSource a, by unfold simpleSource; rw [hkind], lineSource_rethrowSource style a⟩
    | unknown n => rw [hkind] at hk; exact absurd hk (by simp [StmtKind.isKnown])
    | _ => exact simple _ (by unfold simpleSource; rw [hkind]; rfl)

theorem blockSource_eq (style : CodeStyle) :
    ∀ ss : List Stmt, (∀ a ∈ flatten ss, a.kind.isKnown) →
      blockSource style ss = .ok (commandsSource style (stmtCommands ss))
  | [], _ => rfl
  | s :: ss, h => by
    obtain ⟨x, hx, hline⟩ := s.source_eq style fun a ha => h a (by simp [flatten, ha])
    have hrest := blockSource_eq style ss fun a ha => h a (by simp [flatten, ha])
    rw [blockSource, hx, hrest, stmtCommands, commandsSource_append, ← hline]
    rfl

end

end ContractChecks
