import Gamebook.Source.Pattern

/-!
The patterns of the script language. Words are ASCII: letters, digits and the
underscore. A keyword is refused where a longer word goes on, so `nodes` does
not begin `nodes_left`. The operators spelled as words and the constants are
read in any letter case, and there four letters outside ASCII count as the
letter they fold to.
-/
namespace Gamebook.Grammar

open Pattern

def isBlank (c : Char) : Bool := c == ' ' || c == '\t'

def isWordChar (c : Char) : Bool := c.isAlphanum || c == '_'

/-- Does `d` fold to the small letter `c`? Beside the two cases of a letter these
are the long s, the Kelvin sign, and the dotless and the dotted i. -/
def foldsTo (c d : Char) : Bool :=
  d.toLower == c || c == 's' && d == '\u017f' || c == 'k' && d == '\u212a' ||
    c == 'i' && (d == '\u0131' || d == '\u0130')

/-- A word character, or a letter that folds to one. -/
def isFoldedWordChar (c : Char) : Bool :=
  isWordChar c || c == '\u017f' || c == '\u212a' || c == '\u0131' || c == '\u0130'

def keyword (word : String) : Pattern :=
  seq (literal word) (absent isWordChar)

/-- A keyword in any letter case. -/
def caseless (word : String) : Pattern :=
  spell foldsTo word.toList

def unfinished : Pattern := absent isFoldedWordChar

def blockOpen : Pattern := literal "#|"
def blockClose : Pattern := literal "|#"
def comment : Pattern := char '#'
def lineEnd : Pattern := char '\n'
def blanks : Pattern := span isBlank
def blankLine : Pattern := seq (many isBlank) (choice lineEnd finish)
def commentLine : Pattern := seq (many isBlank) comment
def blockLine : Pattern := seq (many isBlank) blockOpen
def comma : Pattern := char ','

def quote : Pattern := char '"'
def escape : Pattern := char '\\'
def word : Pattern := span isWordChar
def digits : Pattern := span Char.isDigit
def numeral : Pattern := seq digits (optional (seq (char '.') digits))

def between (bound : Pattern) : Pattern :=
  seq (capture bound) (seq (many isBlank) (seq (literal "to") (seq (many isBlank) (capture bound))))

def range : Pattern := between numeral
def sigil : Pattern := char '@'
def variableName : Pattern := seq sigil (capture word)

def assign : Pattern := literal ":="
def increase : Pattern := literal "+="
def decrease : Pattern := literal "-="
def multiply : Pattern := literal "*="
def divide : Pattern := literal "/="

def arithmetic : Pattern := one fun c => c == '+' || c == '-' || c == '*' || c == '/'

def comparator : Pattern :=
  choice (literal ">=") <| choice (literal "<=") <| choice (literal "==") <|
    choice (literal "!=") <| choice (char '>') <| choice (char '<') (char '=')

def logical : Pattern :=
  choice (literal "&&") <| choice (literal "||") <|
    seq (choice (caseless "or") (caseless "and")) unfinished

def negation : Pattern :=
  choice (seq (char '!') (absent (· == '='))) (seq (caseless "not") unfinished)

def constant : Pattern :=
  seq (capture (choice (caseless "true") (choice (caseless "false") (caseless "null")))) unfinished

def callOpen : Pattern := seq (capture word) (char '(')
def localName : Pattern := seq (char '$') (capture word)
def property : Pattern := seq (char '.') (capture word)
def parenOpen : Pattern := char '('
def parenClose : Pattern := char ')'
def argumentEnd : Pattern := one fun c => c == ')' || c == ','
def expressionEnd : Pattern := one fun c => c == '\n' || c == '#'
def drawRange : Pattern := between digits
def percent : Pattern := seq (capture numeral) (char '%')
def hasItem : Pattern := seq (literal "hasitem") blanks
def atNode : Pattern := seq (literal "atnode") blanks
def varName : Pattern := seq (literal "var") blanks

/-- The keyword in its singular or its plural. -/
def resources : Pattern :=
  seq (literal "resource") (seq (optional (char 's')) (absent isWordChar))

end Gamebook.Grammar
