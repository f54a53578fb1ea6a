import Gamebook.Expr.Machine
import Gamebook.Source.Probe

/-!
Reading an expression at a probe, from the offset at which patterns are tried.
Until some text is taken the probe keeps its own offset, also one outside the
source. Before the start of an empty source there is nothing ahead, and yet it is
not the end.
-/
namespace Gamebook.Probe

/-- The probe's own offset of a place that reading got to. -/
def offset (p : Probe) (place : Nat) : Int := if place = p.start then p.pos else place

def isBeforeNothing (p : Probe) : Bool := p.source.isEmpty && !p.atEnd

/-- The result, with the offset reached and the text held. A terminator is taken
even if it is empty, which puts the probe into the source. -/
def expr (p : Probe) (setting : Setting) (goal : Goal) :
    Except ProbeError Expr × Int × List Char :=
  let goal := { goal with allowEnd := goal.allowEnd && !p.isBeforeNothing }
  match Read.expr setting goal ⟨p.start, p.rest, p.held, []⟩ with
  | .ok e c => (.ok e, p.offset c.pos, c.held)
  | .error (.longNumeral digits) c => (.error (.longNumeral digits), p.offset c.pos, c.held)
  | .error (.refused .emptyExpression place) c =>
    let ended := goal.consume && (goal.terminator.run p.rest).isSome
    (.error (p.complain Complaint.emptyExpression.message (p.offset place)),
      if ended then c.pos else p.offset c.pos, c.held)
  | .error (.refused complaint place) c =>
    let complaint :=
      if complaint = .unexpectedEnd && p.isBeforeNothing then .unexpectedToken else complaint
    (.error (p.complain complaint.message (p.offset place)), p.offset c.pos, c.held)

end Gamebook.Probe
