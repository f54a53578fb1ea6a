import Gamebook.Text.Pieces

/-!
Names of files. A name is a root, which may be missing, and parts between slashes;
empty parts and single dots say nothing and are dropped, two dots are kept. A
name's suffix goes from the last dot of its last part on, unless that dot is the
first or the last character.
-/
namespace Gamebook

/-- Where an output goes: to the input's name with another suffix, to a name of its
own, or to no name, which is told only when it is to be written. -/
inductive Output where
  | beside
  | named (name : String)
  | nameless
  deriving DecidableEq, Repr

structure FileName where
  root : String
  parts : List (List Char)
  deriving DecidableEq, Repr

namespace FileName

/-- Two slashes at the beginning are a root of their own; more count as one. -/
def rootOf : List Char → String
  | '/' :: '/' :: '/' :: _ => "/"
  | '/' :: '/' :: _ => "//"
  | '/' :: _ => "/"
  | _ => ""

def ofText (text : String) : FileName :=
  ⟨rootOf text.toList,
    (pieces '/' text.toList).filter fun part => part ≠ [] ∧ part ≠ ['.']⟩

def text (n : FileName) : String :=
  if n.root = "" ∧ n.parts = [] then "."
  else n.root ++ "/".intercalate (n.parts.map String.ofList)

/-- The part without its suffix. -/
def stem (part : List Char) : List Char :=
  let suffix := (part.reverse.takeWhile (· != '.')).length
  let rest := part.take (part.length - suffix - 1)
  if suffix = 0 ∨ rest = [] then part else rest

/-- Replace the suffix of the last part, or add one; a name without parts has none. -/
def withSuffix? (n : FileName) (suffix : String) : Option FileName :=
  n.parts.getLast?.map fun last =>
    { n with parts := n.parts.dropLast ++ [stem last ++ suffix.toList] }

end FileName

/-- The name of an output as it is shown, unless the input has none to be made from. -/
def Output.name? (input : String) : Output → Option String
  | beside => ((FileName.ofText input).withSuffix? ".json").map FileName.text
  | named name => some name
  | nameless => some "[]"

end Gamebook
