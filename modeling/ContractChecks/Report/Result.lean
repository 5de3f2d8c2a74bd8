import ContractChecks.Report.Path
import ContractChecks.Report.Position

/-!
# Results

A result describes a declaration that could not be checked: where it is, its qualified name, and
the reason.  Results that explain it further are nested in it.

* `Result.text base r`: the text of a result, with file names as seen from `base`;
* `Result.le`: results by position, then by producer, then by reason;
* `sortResults`, `Result.sortChildren`: the order in which results are printed;
* `resultsText`: all results, one after the other.
-/

namespace ContractChecks

structure Finding where
  pos : Position := {}
  /-- the qualified name of the declaration -/
  producer : Text := []
  /-- the reason, empty if only the nested results have one -/
  reason : Text := []
deriving DecidableEq, Repr

inductive Result where
  | node (finding : Finding) (children : List Result)

namespace Finding

/-- the position as seen from a directory -/
def place (f : Finding) (base : Text) : Text :=
  relativeName base f.pos.file ++ ":" ++ Text.ofInt f.pos.line ++ ":" ++ Text.ofInt f.pos.column

/-- the lines about a finding, each after a line end and an indentation -/
def detail (f : Finding) (indent base : Text) : Text :=
  if f.reason = [] then []
  else
    "\n" ++ indent ++ f.place base ++ ": " ++ Text.join ("\n" ++ indent) f.reason.lines

/-- the indentation of the findings at one level, given that of the level above -/
def indentation (f : Finding) (indent : Text) : Text :=
  if f.reason = [] then indent else "  " ++ indent

/-- by position, then by producer, then by reason -/
def le (a b : Finding) : Bool :=
  if a.pos.file = b.pos.file && a.pos.offset = b.pos.offset then
    if a.producer = b.producer then a.reason.le b.reason else a.producer.le b.producer
  else a.pos.le b.pos

end Finding

namespace Result

def finding : Result → Finding
  | .node f _ => f

def children : Result → List Result
  | .node _ cs => cs

mutual

/-- the lines about a result and those nested in it -/
def details (indent base : Text) : Result → Text
  | .node f cs =>
    f.detail (f.indentation indent) base ++ detailsAll (f.indentation indent) base cs

def detailsAll (indent base : Text) : List Result → Text
  | [] => []
  | r :: rs => details indent base r ++ detailsAll indent base rs

end

/-- the text of a result, with file names as seen from `base` -/
def text (base : Text) (r : Result) : Text :=
  "In " ++ r.finding.producer ++ r.details [] base

def le (a b : Result) : Bool := a.finding.le b.finding

/-- a result without nested ones -/
def leaf (f : Finding) : Result := .node f []

/-- the results nested directly in a result, sorted -/
def sortChildren : Result → Result
  | .node f cs => .node f (cs.mergeSort le)

end Result

def sortResults (rs : List Result) : List Result := rs.mergeSort Result.le

/-- all results in order, each followed by an empty line -/
def resultsText (rs : List Result) : Text :=
  Text.concat ((sortResults rs).map fun r => r.text [] ++ "\n\n")

end ContractChecks
