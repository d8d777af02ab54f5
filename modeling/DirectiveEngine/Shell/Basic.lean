import DirectiveEngine.Text.Blank

/-!
# Shell commands

The syntax tree of a command line: words with what is to be expanded in them, redirections, and commands that
are joined by pipes, conditions and loops.
-/

namespace DirectiveEngine.Shell

/-- What is made of the value of a parameter. -/
inductive Modifier where
  | value
  | length
  /-- A word instead of an unset parameter, and of an empty one if a colon asks for that.  The action tells
  whether the word is used, assigned, used in the opposite case, or reported. -/
  | fallback (action : Char) (colon : Bool) (word : Text)
  /-- The value without what a pattern matches at its start or end, as short or as long as possible. -/
  | removal (atEnd longest : Bool) (pattern : Text)
  deriving DecidableEq

inductive Part where
  | text (quoted : Bool) (t : Text)
  | parameter (quoted : Bool) (name : Text) (m : Modifier)
  | command (quoted : Bool) (source : Text)
  | arithmetic (quoted : Bool) (source : Text)
  deriving DecidableEq

abbrev Word := List Part

inductive Direction where
  | input
  /-- The word itself is the input. -/
  | here
  | output
  | append
  | duplicate
  deriving DecidableEq

structure Redirection where
  descriptor : Nat
  direction : Direction
  target : Word
  deriving DecidableEq

inductive Command where
  | nothing
  | simple (assignments : List (Text × Word)) (words : List Word) (redirections : List Redirection)
  | pipe (left right : Command)
  | not (c : Command)
  | andThen (left right : Command)
  | orElse (left right : Command)
  | seq (first rest : Command)
  | background (c : Command)
  | subshell (c : Command)
  | redirect (c : Command) (redirections : List Redirection)
  | branch (condition yes no : Command)
  /-- Repeats the body while the condition succeeds, or until it does. -/
  | loop (untilSuccess : Bool) (condition body : Command)
  | forEach (name : Text) (words : List Word) (body : Command)
  | choose (subject : Word) (clauses : List (List Word × Command))
  | define (name : Text) (body : Command)

/-- What a command line does not say. -/
inductive SyntaxFault where
  | unterminatedQuote
  | unterminatedBackquote
  | missing (closing : Text)
  | badLoopVariable
  | endOfFile (expecting : Text)
  | unexpected (token expecting : Text)
  | badSubstitution
  deriving DecidableEq

namespace SyntaxFault

def expectation (expecting : Text) : Text :=
  if expecting.isEmpty then [] else " (expecting \"" ++ expecting ++ "\")"

def message : SyntaxFault → Text
  | unterminatedQuote => "Syntax error: Unterminated quoted string"
  | unterminatedBackquote => "Syntax error: EOF in backquote substitution"
  | missing closing => "Syntax error: Missing '" ++ closing ++ "'"
  | badLoopVariable => "Syntax error: Bad for loop variable"
  | endOfFile expecting => "Syntax error: end of file unexpected" ++ expectation expecting
  | unexpected token expecting => "Syntax error: " ++ token ++ " unexpected" ++ expectation expecting
  | badSubstitution => "Bad substitution"

end SyntaxFault

/-! ### Characters -/

/-- Characters that end a word. -/
def endsWord (c : Char) : Bool :=
  c ∈ [' ', '\t', '\n', ';', '&', '|', '<', '>', '(', ')']

def isNameStart (c : Char) : Bool :=
  c.isAlpha || c == '_'

def isNameChar (c : Char) : Bool :=
  c.isAlphanum || c == '_'

def isName (t : Text) : Bool :=
  (t.head?.map isNameStart).getD false && t.all isNameChar

/-- Words that are syntax where a command begins. -/
def reservedWords : List Text :=
  ["if", "then", "elif", "else", "fi", "while", "until", "for", "do", "done", "case", "esac", "in", "\x7b",
    "\x7d", "!"]

/-- Reserved words that end a list of commands. -/
def closingWords : List Text :=
  ["then", "elif", "else", "fi", "do", "done", "esac", "\x7d"]

end DirectiveEngine.Shell
