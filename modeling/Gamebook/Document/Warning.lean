import Gamebook.Document.Basic

/-!
Warnings: a record that replaces an earlier one, and tokens that a record does not
use. Reading goes on after them.
-/
namespace Gamebook

inductive Warning where
  | itemRedefined (id label : String)
  | nodeRedefined (id : String)
  | propertyRedefined (name : String)
  | pathRedefined (source target : String)
  | trailing (record : String) (tokens : Line)
  /-- A warning of the caller's own. -/
  | other (code message : String)
  deriving Repr

namespace Warning

def code : Warning → String
  | itemRedefined .. => "TXG0101"
  | nodeRedefined _ | propertyRedefined _ | pathRedefined .. => "TXG0102"
  | trailing .. => "TXG0103"
  | other code _ => code

def message : Warning → String
  | itemRedefined id label => s!"item '{id}' redefined, label '{label}' replaced"
  | nodeRedefined id => s!"node '{id}' redefined"
  | propertyRedefined name => s!"property '{name}' redefined"
  | pathRedefined source target => s!"path '{source}' -> '{target}' redefined"
  | trailing record tokens => s!"{record}: ignoring trailing tokens {tokens.values}"
  | other _ message => message

def text (w : Warning) : String := s!"{w.code}: {w.message}"

end Warning
end Gamebook
