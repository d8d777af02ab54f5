import DirectiveEngine.Text.Basic

/-!
# Escapes

A backslash takes the meaning from the character after it.  While placeholders are replaced, each such pair
stands as a sentinel between two NUL characters; afterwards it becomes the character alone, except for the
line continuations of a shell, which keep their backslash.
-/

namespace DirectiveEngine

structure Escape where
  /-- The pair as written. -/
  written : Text
  /-- What stands for it meanwhile. -/
  sentinel : Text
  /-- What it becomes. -/
  meaning : Text

/-- All escapes, in the order in which they are protected. -/
def escapes : List Escape :=
  [⟨"\\ ", "\x00SHELL_CONTINUATION_SPACE\x00", "\\ "⟩,
   ⟨"\\\n", "\x00SHELL_CONTINUATION_NEWLINE\x00", "\\\n"⟩,
   ⟨"\\\\", "\x00ESCAPED_BACKSLASH\x00", "\\"⟩,
   ⟨"\\|", "\x00ESCAPED_PIPE\x00", "|"⟩,
   ⟨"\\%", "\x00ESCAPED_PERCENT\x00", "%"⟩,
   ⟨"\\:", "\x00ESCAPED_COLON\x00", ":"⟩,
   ⟨"\\[", "\x00ESCAPED_LBRACKET\x00", "["⟩,
   ⟨"\\]", "\x00ESCAPED_RBRACKET\x00", "]"⟩]

/-- Hides the escaped pairs behind their sentinels. -/
def protect (t : Text) : Text :=
  escapes.foldl (fun t e => Text.replaceAll e.written e.sentinel t) t

/-- Gives the sentinels their meaning. -/
def restore (t : Text) : Text :=
  escapes.foldr (fun e t => Text.replaceAll e.sentinel e.meaning t) t

end DirectiveEngine
