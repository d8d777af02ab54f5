import DirectiveEngine.Shell.Basic

/-!
# Reading shell commands

A recursive reader of command lines.  Each function takes what it can from the start of a text and gives the
rest; the fuel bounds the nesting and is never short for a text of its length.
-/

namespace DirectiveEngine.Shell

/-! ### Words -/

/-- What is inside a group that is open `depth + 1` times, up to its closing character.  Quoted characters
count for nothing. -/
def groupRest? (opening closing : Char) : Nat → Option Char → Text → Option (Text × Text)
  | _, _, [] => none
  | depth, quote, '\\' :: c :: t =>
    if quote = some '\'' then (groupRest? opening closing depth quote (c :: t)).map fun r => ('\\' :: r.1, r.2)
    else (groupRest? opening closing depth quote t).map fun r => ('\\' :: c :: r.1, r.2)
  | depth, quote, c :: t =>
    match quote with
    | some q => (groupRest? opening closing depth (if c = q then none else quote) t).map fun r => (c :: r.1, r.2)
    | none =>
      if c = '\'' ∨ c = '"' then (groupRest? opening closing depth (some c) t).map fun r => (c :: r.1, r.2)
      else if c = closing then
        match depth with
        | 0 => some ([], t)
        | depth + 1 => (groupRest? opening closing depth none t).map fun r => (c :: r.1, r.2)
      else
        (groupRest? opening closing (if c = opening then depth + 1 else depth) none t).map fun r => (c :: r.1, r.2)

/-- Up to the next backquote; a backslash hides one. -/
def backquoted? : Text → Option (Text × Text)
  | [] => none
  | '\x60' :: t => some ([], t)
  | '\\' :: c :: t =>
    (backquoted? t).map fun r =>
      if c = '\x60' ∨ c = '\\' ∨ c = '$' then (c :: r.1, r.2) else ('\\' :: c :: r.1, r.2)
  | c :: t => (backquoted? t).map fun r => (c :: r.1, r.2)

/-- The name of a parameter: a variable, a number, or one character for a fact about the shell. -/
def parameterName (t : Text) : Text × Text :=
  match t with
  | [] => ([], [])
  | c :: rest =>
    if isNameStart c then (t.takeWhile isNameChar, t.dropWhile isNameChar)
    else if c.isDigit || c ∈ ['@', '*', '#', '?', '$', '!', '-'] then ([c], rest)
    else ([], t)

/-- The inside of a parameter expansion in braces. -/
def bracedParameter (quoted : Bool) (inside : Text) : Except SyntaxFault Part :=
  let fallback (name : Text) (action : Char) (colon : Bool) (w : Text) : Except SyntaxFault Part :=
    if action ∈ ['-', '=', '+', '?'] then .ok (.parameter quoted name (.fallback action colon w))
    else .error .badSubstitution
  let named (name rest : Text) : Except SyntaxFault Part :=
    if name.isEmpty then .error .badSubstitution
    else
      match rest with
      | [] => .ok (.parameter quoted name .value)
      | '#' :: '#' :: p => .ok (.parameter quoted name (.removal false true p))
      | '#' :: p => .ok (.parameter quoted name (.removal false false p))
      | '%' :: '%' :: p => .ok (.parameter quoted name (.removal true true p))
      | '%' :: p => .ok (.parameter quoted name (.removal true false p))
      | ':' :: c :: w => fallback name c true w
      | c :: w => fallback name c false w
  let (name, rest) :=
    if (inside.head?.map Char.isDigit).getD false then
      (inside.takeWhile Char.isDigit, inside.dropWhile Char.isDigit)
    else parameterName inside
  match inside with
  | '#' :: c :: more =>
    let (name', rest') := parameterName (c :: more)
    if rest'.isEmpty && !name'.isEmpty then .ok (.parameter quoted name' .length) else named name rest
  | _ => named name rest

/-- What follows a dollar sign. -/
def dollar (quoted : Bool) (t : Text) : Except SyntaxFault (Part × Text) :=
  match t with
  | '(' :: '(' :: r =>
    match groupRest? '(' ')' 1 none r with
    | none => .error (if quoted then .unterminatedQuote else .missing "))")
    | some (inside, rest) => .ok (.arithmetic quoted inside.dropLast, rest)
  | '(' :: r =>
    match groupRest? '(' ')' 0 none r with
    | none => .error (if quoted then .unterminatedQuote else .endOfFile ")")
    | some (inside, rest) => .ok (.command quoted inside, rest)
  | '\x7b' :: r =>
    match groupRest? '\x7b' '\x7d' 0 none r with
    | none => .error (if quoted then .unterminatedQuote else .missing "\x7d")
    | some (inside, rest) => (bracedParameter quoted inside).map fun p => (p, rest)
  | _ =>
    let (name, rest) := parameterName t
    if name.isEmpty then .ok (.text quoted ['$'], t) else .ok (.parameter quoted name .value, rest)

/-- The inside of double quotes, up to the closing one. -/
def doubleQuoted : Nat → Text → Except SyntaxFault (Word × Text)
  | 0, _ => .error .unterminatedQuote
  | _, [] => .error .unterminatedQuote
  | _, '"' :: t => .ok ([], t)
  | fuel + 1, '\\' :: '\n' :: t => doubleQuoted fuel t
  | fuel + 1, '\\' :: c :: t => do
    let kept : Text := if c ∈ ['$', '\x60', '"', '\\'] then [c] else ['\\', c]
    let (w, t) ← doubleQuoted fuel t
    return (.text true kept :: w, t)
  | fuel + 1, '$' :: t => do
    let (p, t) ← dollar true t
    let (w, t) ← doubleQuoted fuel t
    return (p :: w, t)
  | fuel + 1, '\x60' :: t =>
    match backquoted? t with
    | none => .error .unterminatedBackquote
    | some (source, t) => do
      let (w, t) ← doubleQuoted fuel t
      return (.command true source :: w, t)
  | fuel + 1, c :: t => do
    let (w, t) ← doubleQuoted fuel t
    return (.text true [c] :: w, t)

def word : Nat → Text → Except SyntaxFault (Word × Text)
  | 0, t => .ok ([], t)
  | _, [] => .ok ([], [])
  | fuel + 1, '\\' :: '\n' :: t => word fuel t
  | fuel + 1, '\\' :: c :: t => do
    let (w, t) ← word fuel t
    return (.text true [c] :: w, t)
  | fuel + 1, '\'' :: t =>
    match Text.splitFirst? "'" t with
    | none => .error .unterminatedQuote
    | some (inside, t) => do
      let (w, t) ← word fuel t
      return (.text true inside :: w, t)
  | fuel + 1, '"' :: t => do
    let (inside, t) ← doubleQuoted fuel t
    let (w, t) ← word fuel t
    return (if inside = [.parameter true "@" .value] then inside ++ w else .text true [] :: inside ++ w, t)
  | fuel + 1, '$' :: t => do
    let (p, t) ← dollar false t
    let (w, t) ← word fuel t
    return (p :: w, t)
  | fuel + 1, '\x60' :: t =>
    match backquoted? t with
    | none => .error .unterminatedBackquote
    | some (source, t) => do
      let (w, t) ← word fuel t
      return (.command false source :: w, t)
  | fuel + 1, c :: t =>
    if endsWord c then .ok ([], c :: t)
    else do
      let (w, t) ← word fuel t
      return (.text false [c] :: w, t)

/-- A word that stands for a name and a value, taken apart. -/
def splitAssignment? : Text → Word → Option (Text × Word)
  | name, .text false ['='] :: w => if isName name then some (name, w) else none
  | name, .text false [c] :: w => splitAssignment? (name ++ [c]) w
  | _, _ => none

/-! ### Blanks and tokens -/

def skipComment (t : Text) : Text :=
  match t with
  | '#' :: r => r.dropWhile (· != '\n')
  | t => t

/-- Skips blanks, continued lines and a comment. -/
def skipBlanks : Text → Text
  | ' ' :: t => skipBlanks t
  | '\t' :: t => skipBlanks t
  | '\\' :: '\n' :: t => skipBlanks t
  | t => skipComment t

/-- Skips line breaks, too. -/
def skipLines (t : Text) : Text :=
  match _h : skipBlanks t with
  | '\n' :: r => if r.length < t.length then skipLines r else r
  | r => r
termination_by t.length

/-- The unquoted word at the start of a text, if it is a reserved one. -/
def reserved? (t : Text) : Option Text :=
  let w := t.takeWhile fun c => !endsWord c
  if w ∈ reservedWords then some w else none

/-- The name of the token at the start of a text, for a report. -/
def tokenName (t : Text) : Text :=
  match t with
  | [] => "end of file"
  | '\n' :: _ => "newline"
  | ';' :: ';' :: _ => "\";;\""
  | '&' :: '&' :: _ => "\"&&\""
  | '|' :: '|' :: _ => "\"||\""
  | '<' :: _ => "redirection"
  | '>' :: _ => "redirection"
  | c :: _ =>
    if endsWord c then ['"', c, '"']
    else match reserved? t with
      | some w => '"' :: w ++ ['"']
      | none => "word"

def unexpected (t expecting : Text) : SyntaxFault :=
  if t.isEmpty then .endOfFile expecting else .unexpected (tokenName t) expecting

/-- Takes a reserved word that must come next. -/
def expect (w t : Text) : Except SyntaxFault Text :=
  let t := skipLines t
  if reserved? t = some w then .ok (t.drop w.length) else .error (unexpected t w)

/-! ### Simple commands -/

/-- A redirection at the start of a text, if there is one. -/
def redirection? (t : Text) : Option (Except SyntaxFault (Redirection × Text)) :=
  let number := t.takeWhile Char.isDigit
  let rest := t.drop number.length
  let descriptor (default : Nat) : Nat :=
    (number.foldl (fun n c => some (10 * n.getD 0 + (c.toNat - 48))) none).getD default
  let make (default : Nat) (d : Direction) (r : Text) : Option (Except SyntaxFault (Redirection × Text)) :=
    some do
      let r := skipBlanks r
      let (w, rest) ← word (r.length + 1) r
      if rest.length = r.length then throw (unexpected r [])
      return (⟨descriptor default, d, w⟩, rest)
  match rest with
  | '>' :: '>' :: r => make 1 .append r
  | '>' :: '&' :: r => make 1 .duplicate r
  | '>' :: '|' :: r => make 1 .output r
  | '>' :: r => make 1 .output r
  | '<' :: '<' :: '<' :: r => make 0 .here r
  | '<' :: '&' :: r => make 0 .duplicate r
  | '<' :: r => make 0 .input r
  | _ => none

def redirections : Nat → Text → Except SyntaxFault (List Redirection × Text)
  | 0, t => .ok ([], t)
  | fuel + 1, t =>
    match redirection? (skipBlanks t) with
    | none => .ok ([], t)
    | some r => do
      let (r, t) ← r
      let (rs, t) ← redirections fuel t
      return (r :: rs, t)

/-- The words and redirections of a simple command. -/
def simpleItems : Nat → Text → Except SyntaxFault ((List Word × List Redirection) × Text)
  | 0, t => .ok (([], []), t)
  | fuel + 1, t =>
    let t := skipBlanks t
    match redirection? t with
    | some r => do
      let (r, t) ← r
      let ((ws, rs), t) ← simpleItems fuel t
      return ((ws, r :: rs), t)
    | none =>
      match t with
      | [] => .ok (([], []), [])
      | c :: _ =>
        if endsWord c then .ok (([], []), t)
        else do
          let (w, t) ← word (t.length + 1) t
          let ((ws, rs), t) ← simpleItems fuel t
          return ((w :: ws, rs), t)

/-- Assignments are the words of that form in front of the others. -/
def takeAssignments : List Word → List (Text × Word) × List Word
  | [] => ([], [])
  | w :: ws =>
    match splitAssignment? [] w with
    | some a => let r := takeAssignments ws; (a :: r.1, r.2)
    | none => ([], w :: ws)

def simple (fuel : Nat) (t : Text) : Except SyntaxFault (Command × Text) := do
  let ((ws, rs), rest) ← simpleItems fuel t
  if ws.isEmpty && rs.isEmpty then throw (unexpected t [])
  let (assignments, ws) := takeAssignments ws
  return (.simple assignments ws rs, rest)

/-! ### Compound commands -/

/-- The words of a loop up to the end of the line. -/
def loopWords : Nat → Text → Except SyntaxFault (List Word × Text)
  | 0, t => .ok ([], t)
  | fuel + 1, t =>
    match skipBlanks t with
    | [] => .ok ([], [])
    | c :: r =>
      if c = ';' ∨ c = '\n' then .ok ([], r)
      else if endsWord c then .error (unexpected (c :: r) [])
      else do
        let (w, t) ← word (r.length + 2) (c :: r)
        let (ws, t) ← loopWords fuel t
        return (w :: ws, t)

/-- The patterns of a clause up to the closing parenthesis. -/
def clausePatterns : Nat → Text → Except SyntaxFault (List Word × Text)
  | 0, t => .error (unexpected t ")")
  | fuel + 1, t => do
    let t := skipBlanks t
    let (w, rest) ← word (t.length + 1) t
    match skipBlanks rest with
    | ')' :: r => return ([w], r)
    | '|' :: r => do
      let (ws, t) ← clausePatterns fuel r
      return (w :: ws, t)
    | r => throw (unexpected r ")")

/-- The name of a function and the rest behind its parentheses. -/
def functionName? (t : Text) : Option (Text × Text) :=
  let name := t.takeWhile isNameChar
  match isName name, skipBlanks (t.drop name.length) with
  | true, '(' :: r => match skipBlanks r with
    | ')' :: r => some (name, r)
    | _ => none
  | _, _ => none

mutual

/-- Commands up to a word or a character that closes the list, or up to the end of the line. -/
def list (line : Bool) : Nat → Text → Except SyntaxFault (Command × Text)
  | 0, t => .error (unexpected t [])
  | fuel + 1, t =>
    let t := if line then skipBlanks t else skipLines t
    let atEnd := match t with
      | [] => true
      | '\n' :: _ => true
      | ')' :: _ => true
      | ';' :: ';' :: _ => true
      | _ => ((reserved? t).map fun w => decide (w ∈ closingWords)).getD false
    if atEnd then .ok (.nothing, t)
    else do
      let (c, t) ← andOr fuel t
      match skipBlanks t with
      | ';' :: ';' :: r => return (c, ';' :: ';' :: r)
      | ';' :: r => do
        let (rest, t) ← list line fuel r
        return (.seq c rest, t)
      | '&' :: r => do
        let (rest, t) ← list line fuel r
        return (.seq (.background c) rest, t)
      | '\n' :: r =>
        if line then return (c, '\n' :: r)
        else do
          let (rest, t) ← list line fuel r
          return (.seq c rest, t)
      | t => return (c, t)

def andOr : Nat → Text → Except SyntaxFault (Command × Text)
  | 0, t => .error (unexpected t [])
  | fuel + 1, t => do
    let (c, t) ← pipeline fuel t
    andOrRest fuel c t

def andOrRest : Nat → Command → Text → Except SyntaxFault (Command × Text)
  | 0, c, t => .ok (c, t)
  | fuel + 1, c, t =>
    match skipBlanks t with
    | '&' :: '&' :: r => do
      let (d, t) ← pipeline fuel (skipLines r)
      andOrRest fuel (.andThen c d) t
    | '|' :: '|' :: r => do
      let (d, t) ← pipeline fuel (skipLines r)
      andOrRest fuel (.orElse c d) t
    | t => .ok (c, t)

def pipeline : Nat → Text → Except SyntaxFault (Command × Text)
  | 0, t => .error (unexpected t [])
  | fuel + 1, t =>
    let t := skipBlanks t
    if reserved? t = some "!" then (pipeline fuel (t.drop 1)).map fun r => (.not r.1, r.2)
    else do
      let (c, t) ← command fuel t
      match skipBlanks t with
      | '|' :: '|' :: r => return (c, '|' :: '|' :: r)
      | '|' :: r => do
        let (d, t) ← pipeline fuel (skipLines r)
        return (.pipe c d, t)
      | t => return (c, t)

def command : Nat → Text → Except SyntaxFault (Command × Text)
  | 0, t => .error (unexpected t [])
  | fuel + 1, t => do
    let t := skipBlanks t
    match t, reserved? t with
    | '(' :: r, _ => do
      let (c, t) ← list false fuel r
      match skipLines t with
      | ')' :: t =>
        if let .nothing := c then throw (unexpected (')' :: t) [])
        withRedirections fuel (.subshell c) t
      | t => throw (unexpected t ")")
    | _, some w =>
      let (c, t) ← compound fuel w (t.drop w.length)
      withRedirections fuel c t
    | _, none =>
      match functionName? t with
      | some (name, r) => do
        let (body, t) ← command fuel (skipLines r)
        return (.define name body, t)
      | none => simple (t.length + 1) t

def withRedirections : Nat → Command → Text → Except SyntaxFault (Command × Text)
  | fuel, c, t => do
    let (rs, t) ← redirections fuel t
    return (if rs.isEmpty then c else .redirect c rs, t)

/-- The command that a reserved word begins. -/
def compound : Nat → Text → Text → Except SyntaxFault (Command × Text)
  | 0, _, t => .error (unexpected t [])
  | fuel + 1, w, t =>
    if w = "if" then branches fuel t
    else if w = "while" ∨ w = "until" then do
      let (c, t) ← list false fuel t
      let t ← expect "do" t
      let (b, t) ← list false fuel t
      let t ← expect "done" t
      return (.loop (w = "until") c b, t)
    else if w = "for" then do
      let t := skipBlanks t
      let name := t.takeWhile isNameChar
      if !isName name then throw .badLoopVariable
      let t := skipLines (t.drop name.length)
      let (ws, t) ←
        if reserved? t = some "in" then loopWords (t.length + 1) (t.drop 2)
        else pure ([[.parameter true "@" .value]], match t with | ';' :: r => r | t => t)
      let t ← expect "do" t
      let (b, t) ← list false fuel t
      let t ← expect "done" t
      return (.forEach name ws b, t)
    else if w = "case" then do
      let t := skipBlanks t
      let (subject, t) ← word (t.length + 1) t
      let t ← expect "in" t
      let (cs, t) ← clauses fuel t
      return (.choose subject cs, t)
    else if w = "\x7b" then do
      let (c, t) ← list false fuel t
      let t ← expect "\x7d" t
      return (.seq c .nothing, t)
    else .error (.unexpected ('"' :: w ++ ['"']) [])

/-- What follows `if` or `elif`. -/
def branches : Nat → Text → Except SyntaxFault (Command × Text)
  | 0, t => .error (unexpected t [])
  | fuel + 1, t => do
    let (c, t) ← list false fuel t
    let t ← expect "then" t
    let (yes, t) ← list false fuel t
    let t := skipLines t
    if reserved? t = some "elif" then
      let (no, t) ← branches fuel (t.drop 4)
      return (.branch c yes no, t)
    else if reserved? t = some "else" then
      let (no, t) ← list false fuel (t.drop 4)
      let t ← expect "fi" t
      return (.branch c yes no, t)
    else
      let t ← expect "fi" t
      return (.branch c yes .nothing, t)

def clauses : Nat → Text → Except SyntaxFault (List (List Word × Command) × Text)
  | 0, t => .error (unexpected t [])
  | fuel + 1, t =>
    let t := skipLines t
    if reserved? t = some "esac" then .ok ([], t.drop 4)
    else do
      let (ps, t) ← clausePatterns (t.length + 1) (match t with | '(' :: r => r | t => t)
      let (c, t) ← list false fuel t
      match skipLines t with
      | ';' :: ';' :: r => do
        let (cs, t) ← clauses fuel r
        return ((ps, c) :: cs, t)
      | t => do
        let t ← expect "esac" t
        return ([(ps, c)], t)

end

/-- The commands of the first line that has any, and the lines after it. -/
def firstLine (t : Text) : Except SyntaxFault (Command × Text) := do
  let t := skipLines t
  let (c, t) ← list true (8 * t.length + 8) t
  match skipBlanks t with
  | [] => return (c, [])
  | '\n' :: r => return (c, r)
  | t => throw (unexpected t [])

end DirectiveEngine.Shell
