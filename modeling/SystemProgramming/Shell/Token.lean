import SystemProgramming.Lib.Fallible

/-!
# The tokenizer of the shell

`parse_token` of `parser.c`.  The bytes from `pos` to `end` are a list; `used` counts the bytes
between `begin` and `pos`, and `none` is the result 0, that more input is needed.
-/

namespace SystemProgramming.Shell

/-- How the parser stops when it does not return: the function whose assertion fails, or a
`memcpy` past the end of the buffer. -/
inductive Fault
  | tokenStrdup
  | parseToken
  | parserConsume
  | parserPopNext
  | overrun
  | endless
  deriving DecidableEq, Repr

abbrev Run := Except Fault

/-! ## Bytes -/

def tab : UInt8 := 9

def newline : UInt8 := 10

def carriageReturn : UInt8 := 13

def space : UInt8 := 32

def doubleQuote : UInt8 := 34

def hash : UInt8 := 35

def ampersand : UInt8 := 38

def singleQuote : UInt8 := 39

def greater : UInt8 := 62

def backslash : UInt8 := 92

def bar : UInt8 := 124

/-- `isspace` in the C locale: tab to carriage return, and space. -/
def isSpace (c : UInt8) : Bool := (9 ≤ c && c ≤ 13) || c == 32

def isQuote (c : UInt8) : Bool := c == singleQuote || c == doubleQuote

def isOperator (c : UInt8) : Bool := c == ampersand || c == bar || c == greater

/-- The blanks that end a word. -/
def isBlank (c : UInt8) : Bool := c == space || c == tab || c == carriageReturn

/-! ## Tokens -/

inductive TokenType
  | str
  | newLine
  | pipe
  | and
  | or
  | outNew
  | outAppend
  | background
  deriving DecidableEq, Repr

structure Token where
  type : TokenType
  data : List UInt8
  deriving DecidableEq, Repr

def doubledOperator (c : UInt8) : TokenType :=
  if c = ampersand then .and else if c = bar then .or else .outAppend

def singleOperator (c : UInt8) : TokenType :=
  if c = ampersand then .background else if c = bar then .pipe else .outNew

/-- The rest of a comment, up to and including its newline. -/
def skipComment (used : Nat) : List UInt8 → Option (Nat × Token)
  | [] => none
  | c :: rest =>
    if c = newline then some (used + 1, ⟨.newLine, []⟩) else skipComment (used + 1) rest

/-- The main loop of `parse_token`; `quote` is 0 outside of quotes. -/
def scanToken (quote : UInt8) (data : List UInt8) (used : Nat) :
    List UInt8 → Run (Option (Nat × Token))
  | [] => .ok none
  | c :: rest =>
    if isQuote c then
      if quote = 0 then
        if rest = [] then .ok none else scanToken c data (used + 1) rest
      -- the other quote is a byte of the word
      else if quote ≠ c then
        scanToken quote (data ++ [c]) (used + 1) rest
      else
        .ok (some (used + 1, ⟨.str, data⟩))
    else if c = backslash then
      if quote = singleQuote then
        scanToken quote (data ++ [c]) (used + 1) rest
      else if quote = doubleQuote then
        match rest with
        | [] => .ok none
        | d :: rest =>
          if d = backslash then scanToken quote (data ++ [d]) (used + 2) rest
          else if d = newline then scanToken quote data (used + 2) rest
          else if d = doubleQuote then scanToken quote (data ++ [d]) (used + 2) rest
          else scanToken quote (data ++ [backslash] ++ [d]) (used + 2) rest
      -- `assert(quote == 0)`
      else if quote ≠ 0 then
        .error .parseToken
      else
        match rest with
        | [] => .ok none
        | d :: rest =>
          if d = newline then scanToken quote data (used + 2) rest
          else scanToken quote (data ++ [d]) (used + 2) rest
    else if isOperator c then
      if quote ≠ 0 then
        scanToken quote (data ++ [c]) (used + 1) rest
      else if data ≠ [] then
        .ok (some (used, ⟨.str, data⟩))
      else
        match rest with
        | [] => .ok none
        | d :: _ =>
          if d = c then .ok (some (used + 2, ⟨doubledOperator c, []⟩))
          else .ok (some (used + 1, ⟨singleOperator c, []⟩))
    -- `assert(out->size > 0)` in this branch and the next
    else if isBlank c then
      if quote ≠ 0 then
        scanToken quote (data ++ [c]) (used + 1) rest
      else if data = [] then
        .error .parseToken
      else
        .ok (some (used + 1, ⟨.str, data⟩))
    else if c = newline then
      if quote ≠ 0 then
        scanToken quote (data ++ [c]) (used + 1) rest
      else if data = [] then
        .error .parseToken
      else
        .ok (some (used, ⟨.str, data⟩))
    else if c = hash then
      if quote ≠ 0 then
        scanToken quote (data ++ [c]) (used + 1) rest
      else if data ≠ [] then
        .ok (some (used, ⟨.str, data⟩))
      else
        .ok (skipComment (used + 1) rest)
    else
      scanToken quote (data ++ [c]) (used + 1) rest

theorem scan_nil (quote : UInt8) (data : List UInt8) (used : Nat) :
    scanToken quote data used [] = .ok none := by
  rw [scanToken.eq_def]

/-- The first loop of `parse_token`, which skips white space, and the main loop after it. -/
def parseTokenFrom (used : Nat) : List UInt8 → Run (Option (Nat × Token))
  | [] => scanToken 0 [] used []
  | c :: rest =>
    if !isSpace c then scanToken 0 [] used (c :: rest)
    else if c = newline then .ok (some (used + 1, ⟨.newLine, []⟩))
    else parseTokenFrom (used + 1) rest

def parseToken (s : List UInt8) : Run (Option (Nat × Token)) := parseTokenFrom 0 s

end SystemProgramming.Shell
