import SystemProgramming.Shell.Token

/-!
# The parser of the shell

`parser.c` above the tokenizer.  The buffer of a parser is the list of the `size` bytes in use;
`pos` is an offset into it.  The list of expressions of a command line is held as a list from
`head` to `tail`, and a C string as its bytes with the terminating zero.  What the `goto`s of
`parser_pop_next` lead to are functions of their own, in the order of the labels.
-/

namespace SystemProgramming.Shell

inductive ParserError
  | none
  | pipeWithNoLeftArg
  | pipeWithLeftArgNotACommand
  | andWithNoLeftArg
  | andWithLeftArgNotACommand
  | orWithNoLeftArg
  | orWithLeftArgNotACommand
  | outputRedirectBadArg
  | tooLateArguments
  | endsNotWithACommand
  deriving DecidableEq, Repr

structure Command where
  exe : List UInt8
  args : List (List UInt8)
  deriving DecidableEq, Repr

inductive Expr
  | command (cmd : Command)
  | pipe
  | and
  | or
  deriving DecidableEq, Repr

inductive OutputType
  | stdout
  | fileNew
  | fileAppend
  deriving DecidableEq, Repr

structure CommandLine where
  exprs : List Expr
  outType : OutputType
  outFile : Option (List UInt8)
  isBackground : Bool
  deriving DecidableEq, Repr

/-- What `calloc` gives. -/
def CommandLine.empty : CommandLine := ⟨[], .stdout, none, false⟩

structure Parser where
  buffer : List UInt8
  capacity : Nat
  deriving DecidableEq, Repr

def parserNew : Parser := ⟨[], 0⟩

def tokenStrdup (t : Token) : Run (List UInt8) :=
  if t.type ≠ .str then .error .tokenStrdup
  else if t.data = [] then .error .tokenStrdup
  else .ok (t.data ++ [0])

def CommandLine.append (line : CommandLine) (e : Expr) : CommandLine :=
  { line with exprs := line.exprs ++ [e] }

def Command.appendArg (cmd : Command) (arg : List UInt8) : Command :=
  { cmd with args := cmd.args ++ [arg] }

/-- Replace the tail. -/
def CommandLine.setTail (line : CommandLine) (e : Expr) : CommandLine :=
  { line with exprs := line.exprs.dropLast ++ [e] }

/-! ## `parser_feed` and `parser_consume` -/

/-- The sizes are `uint32_t`. -/
def parserFeed (p : Parser) (str : List UInt8) : Run Parser :=
  let size := p.buffer.length
  let len := str.length
  let cap := (2 ^ 32 + p.capacity - size) % 2 ^ 32
  let capacity :=
    if cap < len then
      let newCapacity := (p.capacity + 1) * 2 % 2 ^ 32
      if (2 ^ 32 + newCapacity - size) % 2 ^ 32 < len then (size + len) % 2 ^ 32 else newCapacity
    else p.capacity
  if size + len ≤ capacity then
    .ok ⟨p.buffer ++ str, capacity⟩
  else
    .error .overrun

def parserConsume (p : Parser) (size : Nat) : Run Parser :=
  if size ≤ p.buffer.length then .ok { p with buffer := p.buffer.drop size }
  else .error .parserConsume

/-! ## `parser_pop_next` -/

/-- How a part of `parser_pop_next` is left: for `return_no_line`, for `return_error`, or for the
next part. -/
inductive Exit
  | noLine
  | fail (err : ParserError) (pos : Nat)
  | next (token : Token) (pos : Nat) (line : CommandLine)
  deriving DecidableEq, Repr

/-- The three operators: what is appended, and the errors for a missing left side. -/
def appendOperator (line : CommandLine) (e : Expr) (noLeft notACommand : ParserError) :
    Except ParserError CommandLine :=
  match line.exprs.getLast? with
  | none => .error noLeft
  | some (.command _) => .ok (line.append e)
  | some _ => .error notACommand

def appendPipe (line : CommandLine) : Except ParserError CommandLine :=
  appendOperator line .pipe .pipeWithNoLeftArg .pipeWithLeftArgNotACommand

def appendAnd (line : CommandLine) : Except ParserError CommandLine :=
  appendOperator line .and .andWithNoLeftArg .andWithLeftArgNotACommand

def appendOr (line : CommandLine) : Except ParserError CommandLine :=
  appendOperator line .or .orWithNoLeftArg .orWithLeftArgNotACommand

/-- A word: an argument if the line ends in a command, else a new command. -/
def appendStr (line : CommandLine) (token : Token) : Run CommandLine := do
  let s ← tokenStrdup token
  match line.exprs.getLast? with
  | some (.command cmd) => pure (line.setTail (.command (cmd.appendArg s)))
  | _ => pure (line.append (.command ⟨s, []⟩))

/-- The token loop. -/
def tokenLoop (buffer : List UInt8) : Nat → Nat → CommandLine → Run Exit
  | 0, _, _ => .error .endless
  | fuel + 1, pos, line =>
    if pos < buffer.length then do
      match ← parseToken (buffer.drop pos) with
      | none => pure .noLine
      | some (used, token) =>
        let pos := pos + used
        match token.type with
        | .str => do
          let line ← appendStr line token
          tokenLoop buffer fuel pos line
        | .newLine =>
          if line.exprs = [] then tokenLoop buffer fuel pos line else pure (.next token pos line)
        | .pipe =>
          match appendPipe line with
          | .error err => pure (.fail err pos)
          | .ok line => tokenLoop buffer fuel pos line
        | .and =>
          match appendAnd line with
          | .error err => pure (.fail err pos)
          | .ok line => tokenLoop buffer fuel pos line
        | .or =>
          match appendOr line with
          | .error err => pure (.fail err pos)
          | .ok line => tokenLoop buffer fuel pos line
        | .outNew | .outAppend | .background => pure (.next token pos line)
    else
      .ok .noLine

/-- `close_and_return`: a redirection, its target and the token after it. -/
def closeRedirect (buffer : List UInt8) (token : Token) (pos : Nat) (line : CommandLine) :
    Run Exit :=
  if token.type = .outNew ∨ token.type = .outAppend then do
    let line := { line with
      outType := if token.type = TokenType.outNew then .fileNew else .fileAppend }
    match ← parseToken (buffer.drop pos) with
    | none => pure .noLine
    | some (used, token) =>
      let pos := pos + used
      if token.type ≠ .str then
        pure (.fail .outputRedirectBadArg pos)
      else do
        let file ← tokenStrdup token
        let line := { line with outFile := some file }
        match ← parseToken (buffer.drop pos) with
        | none => pure .noLine
        | some (used, token) => pure (.next token (pos + used) line)
  else
    .ok (.next token pos line)

/-- `close_and_return`: the background mark and the token after it. -/
def closeBackground (buffer : List UInt8) (token : Token) (pos : Nat) (line : CommandLine) :
    Run Exit :=
  if token.type = .background then do
    let line := { line with isBackground := true }
    match ← parseToken (buffer.drop pos) with
    | none => pure .noLine
    | some (used, token) => pure (.next token (pos + used) line)
  else
    .ok (.next token pos line)

/-- `return_error`: skip the rest of the line; the error is reported only if its end is there. -/
def returnError (p : Parser) (err : ParserError) :
    Nat → Nat → Run (Parser × ParserError × Option CommandLine)
  | 0, _ => .error .endless
  | fuel + 1, pos =>
    if pos < p.buffer.length then do
      match ← parseToken (p.buffer.drop pos) with
      | none => pure (p, .none, none)
      | some (used, token) =>
        let pos := pos + used
        -- the rest of the line is skipped, if its end is there
        if token.type = .newLine then do
          let p ← parserConsume p pos
          pure (p, err, none)
        else
          returnError p err fuel pos
    else
      .ok (p, .none, none)

/-- `close_and_return`: the newline. -/
def closeNewLine (p : Parser) (token : Token) (pos : Nat) (line : CommandLine) :
    Run (Parser × ParserError × Option CommandLine) :=
  if token.type = .newLine then
    match line.exprs.getLast? with
    -- `assert(line->tail != NULL)`
    | none => .error .parserPopNext
    | some (.command _) => do
      let p ← parserConsume p pos
      pure (p, .none, some line)
    -- the last expression is an operator
    | some _ => do
      let p ← parserConsume p pos
      pure (p, .endsNotWithACommand, none)
  else
    returnError p .tooLateArguments (p.buffer.length + 1) pos

/-- Go on with what an exit leads to. -/
def Exit.bind (x : Exit) (p : Parser)
    (k : Token → Nat → CommandLine → Run (Parser × ParserError × Option CommandLine)) :
    Run (Parser × ParserError × Option CommandLine) :=
  match x with
  | .noLine => .ok (p, .none, none)
  | .fail err pos => returnError p err (p.buffer.length + 1) pos
  | .next token pos line => k token pos line

/-- The parser after the call, the error code, and what is stored in `*out`. -/
def parserPopNext (p : Parser) : Run (Parser × ParserError × Option CommandLine) := do
  let exit ← tokenLoop p.buffer (p.buffer.length + 1) 0 .empty
  exit.bind p fun token pos line => do
    let exit ← closeRedirect p.buffer token pos line
    exit.bind p fun token pos line => do
      let exit ← closeBackground p.buffer token pos line
      exit.bind p fun token pos line => closeNewLine p token pos line

end SystemProgramming.Shell
