import DirectiveEngine.Arithmetic.Evaluate
import DirectiveEngine.Template.Delimited

/-!
# Embedded arithmetic

Each expression written between the math opener and a closing brace is replaced by its value.
-/

namespace DirectiveEngine

def mathOpening : Text := "\x7bmath:"

def replaceMath (t : Text) : Text :=
  replaceDelimited mathOpening "\x7d" (fun e => some (Arithmetic.evaluate Arithmetic.binary64 e)) t

end DirectiveEngine
