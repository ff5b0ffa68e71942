import SystemProgramming.Shell.TokenStream

/-!
# The syntax of a line

What a line of the shell is, apart from how it is parsed: commands of words that are not empty, with
an operator between two of them, a redirection and the background mark.  A syntax tree has tokens
and it has a `CommandLine`; the token loop and `close_and_return` go from the one to the other.
-/

namespace SystemProgramming.Shell

structure Word where
  bytes : List UInt8
  ne_nil : bytes ≠ []
  deriving DecidableEq, Repr

structure Simple where
  exe : Word
  args : List Word
  deriving DecidableEq, Repr

inductive Op
  | pipe
  | and
  | or
  deriving DecidableEq, Repr

inductive Redirect
  | new (file : Word)
  | append (file : Word)
  deriving DecidableEq, Repr

/-- The commands with an operator after them, and the one that has none yet. -/
structure Pipeline where
  joined : List (Simple × Op)
  last : Option Simple
  deriving DecidableEq, Repr

structure Statement where
  joined : List (Simple × Op)
  last : Simple
  redirect : Option Redirect
  isBackground : Bool
  deriving DecidableEq, Repr

/-! ## Tokens -/

def newLineToken : Token := ⟨.newLine, []⟩

def Word.token (w : Word) : Token := ⟨.str, w.bytes⟩

def Simple.tokens (c : Simple) : List Token := c.exe.token :: c.args.map Word.token

def Op.token : Op → Token
  | .pipe => ⟨.pipe, []⟩
  | .and => ⟨.and, []⟩
  | .or => ⟨.or, []⟩

def Redirect.tokens : Redirect → List Token
  | .new file => [⟨.outNew, []⟩, file.token]
  | .append file => [⟨.outAppend, []⟩, file.token]

def joinedTokens (cs : List (Simple × Op)) : List Token :=
  cs.flatMap fun c => c.1.tokens ++ [c.2.token]

def Pipeline.tokens (l : Pipeline) : List Token :=
  joinedTokens l.joined ++ (l.last.map Simple.tokens).getD []

/-- The tokens that close a line, with its newline. -/
def closingTokens (r : Option Redirect) (b : Bool) : List Token :=
  (r.map Redirect.tokens).getD [] ++ (if b then [⟨.background, []⟩] else []) ++ [newLineToken]

def Statement.tokens (st : Statement) : List Token :=
  joinedTokens st.joined ++ st.last.tokens ++ closingTokens st.redirect st.isBackground

/-- Empty lines. -/
def blankLines (k : Nat) : List Token := List.replicate k newLineToken

/-! ## Command lines -/

def Word.cString (w : Word) : List UInt8 := w.bytes ++ [0]

def Simple.command (c : Simple) : Command := ⟨c.exe.cString, c.args.map Word.cString⟩

def Op.expr : Op → Expr
  | .pipe => .pipe
  | .and => .and
  | .or => .or

def joinedExprs (cs : List (Simple × Op)) : List Expr :=
  cs.flatMap fun c => [.command c.1.command, c.2.expr]

def Pipeline.exprs (l : Pipeline) : List Expr :=
  joinedExprs l.joined ++ (l.last.map fun c => [.command c.command]).getD []

def Pipeline.line (l : Pipeline) : CommandLine := ⟨l.exprs, .stdout, none, false⟩

def redirectType : Option Redirect → OutputType
  | none => .stdout
  | some (.new _) => .fileNew
  | some (.append _) => .fileAppend

def redirectFile : Option Redirect → Option (List UInt8)
  | none => none
  | some (.new file) => some file.cString
  | some (.append file) => some file.cString

def CommandLine.close (line : CommandLine) (r : Option Redirect) (b : Bool) : CommandLine :=
  { line with outType := redirectType r, outFile := redirectFile r, isBackground := b }

def Statement.commandLine (st : Statement) : CommandLine :=
  ⟨joinedExprs st.joined ++ [.command st.last.command], redirectType st.redirect,
    redirectFile st.redirect, st.isBackground⟩

/-- The file is named exactly if there is one. -/
theorem Statement.outFile_eq_none_iff (st : Statement) :
    st.commandLine.outFile = none ↔ st.commandLine.outType = .stdout := by
  cases hr : st.redirect with
  | none => simp [Statement.commandLine, hr, redirectFile, redirectType]
  | some r => cases r <;> simp [Statement.commandLine, hr, redirectFile, redirectType]

/-! ## One token of the loop -/

/-- A token that holds no bytes unless it is a word. -/
def Token.Plain (t : Token) : Prop := t.type ≠ .str → t.data = []

def Pipeline.addWord (l : Pipeline) (w : Word) : Pipeline :=
  match l.last with
  | some c => ⟨l.joined, some ⟨c.exe, c.args ++ [w]⟩⟩
  | none => ⟨l.joined, some ⟨w, []⟩⟩

def Pipeline.empty : Pipeline := ⟨[], none⟩

@[simp] theorem joinedTokens_append (cs ds : List (Simple × Op)) :
    joinedTokens (cs ++ ds) = joinedTokens cs ++ joinedTokens ds := List.flatMap_append

@[simp] theorem joinedTokens_single (c : Simple) (op : Op) :
    joinedTokens [(c, op)] = c.tokens ++ [op.token] := by
  simp [joinedTokens]

@[simp] theorem joinedExprs_append (cs ds : List (Simple × Op)) :
    joinedExprs (cs ++ ds) = joinedExprs cs ++ joinedExprs ds := List.flatMap_append

@[simp] theorem joinedExprs_single (c : Simple) (op : Op) :
    joinedExprs [(c, op)] = [.command c.command, op.expr] := by
  simp [joinedExprs]

theorem addWord_tokens (l : Pipeline) (w : Word) : (l.addWord w).tokens = l.tokens ++ [w.token] := by
  unfold Pipeline.addWord Pipeline.tokens
  cases l.last with
  | none => simp [Simple.tokens]
  | some c => simp [Simple.tokens]

/-- The last expression is a command exactly if the last command has no operator after it. -/
theorem getLast?_exprs (l : Pipeline) : l.exprs.getLast? =
    match l.last with
    | some c => some (.command c.command)
    | none => l.joined.getLast?.map fun c => c.2.expr := by
  unfold Pipeline.exprs
  cases l.last with
  | some c => simp
  | none =>
    rcases List.eq_nil_or_concat l.joined with hnil | ⟨cs, ⟨c, op⟩, hcons⟩
    · simp [hnil, joinedExprs]
    · simp [hcons]

theorem exprs_eq_nil_iff (l : Pipeline) : l.exprs = [] ↔ l = .empty := by
  rcases l with ⟨cs, last⟩
  unfold Pipeline.exprs Pipeline.empty
  cases last with
  | some c => simp
  | none => cases cs <;> simp [joinedExprs]

theorem line_addWord (l : Pipeline) (w : Word) :
    l.line.addWord w.cString = (l.addWord w).line := by
  have hlast := getLast?_exprs l
  unfold CommandLine.addWord
  rw [show l.line.exprs.getLast? = l.exprs.getLast? from rfl, hlast]
  unfold Pipeline.addWord
  cases hl : l.last with
  | some c =>
    simp [Pipeline.line, Pipeline.exprs, hl, CommandLine.setTail, Command.appendArg,
      Simple.command]
  | none =>
    cases hj : l.joined.getLast? with
    | none => simp [Pipeline.line, Pipeline.exprs, hl, CommandLine.append, Simple.command]
    | some c =>
      rcases c with ⟨c, op⟩
      cases op <;>
        simp [Pipeline.line, Pipeline.exprs, hl, CommandLine.append, Simple.command, Op.expr]

theorem take_word (l : Pipeline) (w : Word) : l.line.take w.token = .read (l.addWord w).line := by
  rw [← line_addWord]
  simp [CommandLine.take, Word.token, w.ne_nil, Word.cString]

theorem appendOperator_eq (l : Pipeline) (x : Expr) (noLeft notACommand : ParserError) :
    appendOperator l.line x noLeft notACommand =
      match l.last with
      | some _ => .ok (l.line.append x)
      | none => .error (if l.joined = [] then noLeft else notACommand) := by
  unfold appendOperator
  rw [show l.line.exprs.getLast? = l.exprs.getLast? from rfl, getLast?_exprs]
  cases l.last with
  | some c => rfl
  | none =>
    rcases List.eq_nil_or_concat l.joined with hnil | ⟨cs, ⟨c, op⟩, hcons⟩
    · simp [hnil]
    · cases op <;> simp [hcons, Op.expr]

def Op.noLeft : Op → ParserError
  | .pipe => .pipeWithNoLeftArg
  | .and => .andWithNoLeftArg
  | .or => .orWithNoLeftArg

def Op.notACommand : Op → ParserError
  | .pipe => .pipeWithLeftArgNotACommand
  | .and => .andWithLeftArgNotACommand
  | .or => .orWithLeftArgNotACommand

/-- An operator needs a command before it. -/
theorem take_op (l : Pipeline) (op : Op) : l.line.take op.token =
    match l.last with
    | some c => .read (Pipeline.line ⟨l.joined ++ [(c, op)], none⟩)
    | none => .error (if l.joined = [] then op.noLeft else op.notACommand) := by
  have hop : l.line.take op.token =
      .ofExcept (appendOperator l.line op.expr op.noLeft op.notACommand) := by
    cases op <;> rfl
  rw [hop, appendOperator_eq]
  cases hl : l.last with
  | some c =>
    simp [Taken.ofExcept, Pipeline.line, Pipeline.exprs, hl, CommandLine.append]
  | none => rfl

theorem take_newLine (l : Pipeline) : l.line.take newLineToken =
    if l = .empty then .read Pipeline.empty.line else .close := by
  by_cases hl : l = .empty
  · rw [if_pos hl, hl]
    rfl
  · have hexprs : l.line.exprs ≠ [] := fun h => hl ((exprs_eq_nil_iff l).mp h)
    rw [if_neg hl]
    simp [CommandLine.take, newLineToken, hexprs]

/-- The tokens, by what the loop does with them. -/
theorem plain_cases {t : Token} (h : t.Plain) :
    (∃ w : Word, t = w.token) ∨ t = ⟨.str, []⟩ ∨ t = newLineToken ∨ (∃ op : Op, t = op.token) ∨
      t = ⟨.outNew, []⟩ ∨ t = ⟨.outAppend, []⟩ ∨ t = ⟨.background, []⟩ := by
  rcases t with ⟨type, data⟩
  by_cases hstr : type = .str
  · by_cases hdata : data = []
    · exact .inr (.inl (by rw [hstr, hdata]))
    · exact .inl ⟨⟨data, hdata⟩, by rw [hstr]; rfl⟩
  · obtain rfl : data = [] := h hstr
    cases type with
    | str => exact absurd rfl hstr
    | newLine => exact .inr (.inr (.inl rfl))
    | pipe => exact .inr (.inr (.inr (.inl ⟨.pipe, rfl⟩)))
    | and => exact .inr (.inr (.inr (.inl ⟨.and, rfl⟩)))
    | or => exact .inr (.inr (.inr (.inl ⟨.or, rfl⟩)))
    | outNew => simp
    | outAppend => simp
    | background => simp

/-! ## The tokens that the loop reads -/

/-- The loop reads the tokens and gets from one line to another. -/
inductive Reads : CommandLine → List Token → CommandLine → Prop
  | nil (line : CommandLine) : Reads line [] line
  | cons {line line' line'' : CommandLine} {t : Token} {ts : List Token} :
      line.take t = .read line' → Reads line' ts line'' → Reads line (t :: ts) line''

theorem Reads.append {line line' line'' : CommandLine} {ts us : List Token}
    (h : Reads line ts line') (h' : Reads line' us line'') : Reads line (ts ++ us) line'' := by
  induction h with
  | nil => exact h'
  | cons htake _ ih => exact .cons htake (ih h')

theorem Reads.single {line line' : CommandLine} {t : Token} (h : line.take t = .read line') :
    Reads line [t] line' := .cons h (.nil _)

theorem reads_blankLines (k : Nat) : Reads .empty (blankLines k) .empty := by
  induction k with
  | zero => exact .nil _
  | succ k ih => exact .cons (take_newLine .empty) ih

theorem reads_args (cs : List (Simple × Op)) (c : Simple) (ws : List Word) :
    Reads (Pipeline.line ⟨cs, some c⟩) (ws.map Word.token)
      (Pipeline.line ⟨cs, some ⟨c.exe, c.args ++ ws⟩⟩) := by
  induction ws generalizing c with
  | nil =>
    rw [List.append_nil]
    exact .nil _
  | cons w ws ih =>
    have hrest := ih ⟨c.exe, c.args ++ [w]⟩
    rw [List.append_assoc] at hrest
    exact .cons (take_word ⟨cs, some c⟩ w) hrest

theorem reads_simple (cs : List (Simple × Op)) (c : Simple) :
    Reads (Pipeline.line ⟨cs, none⟩) c.tokens (Pipeline.line ⟨cs, some c⟩) :=
  .cons (take_word ⟨cs, none⟩ c.exe) (reads_args cs ⟨c.exe, []⟩ c.args)

theorem reads_joined (cs : List (Simple × Op)) :
    Reads .empty (joinedTokens cs) (Pipeline.line ⟨cs, none⟩) := by
  induction cs using List.reverseRecOn with
  | nil => exact .nil _
  | append_singleton cs c ih =>
    rw [joinedTokens_append, joinedTokens_single]
    exact ih.append ((reads_simple cs c.1).append (.single (take_op ⟨cs, some c.1⟩ c.2)))

theorem reads_pipeline (l : Pipeline) : Reads .empty l.tokens l.line := by
  rcases l with ⟨cs, last⟩
  cases last with
  | none =>
    have hjoined := reads_joined cs
    rwa [← List.append_nil (joinedTokens cs)] at hjoined
  | some c => exact (reads_joined cs).append (reads_simple cs c)

/-- What the loop can do with one token. -/
theorem take_read {l : Pipeline} {t : Token} {line : CommandLine} (ht : t.Plain)
    (h : l.line.take t = .read line) :
    (l = .empty ∧ t = newLineToken ∧ line = .empty) ∨
      ∃ l' : Pipeline, l'.tokens = l.tokens ++ [t] ∧ line = l'.line := by
  rcases plain_cases ht with ⟨w, rfl⟩ | rfl | rfl | ⟨op, rfl⟩ | rfl | rfl | rfl
  · rw [take_word] at h
    cases h
    exact .inr ⟨l.addWord w, addWord_tokens l w, rfl⟩
  · cases h
  · rw [take_newLine] at h
    by_cases hl : l = .empty
    · rw [if_pos hl] at h
      cases h
      exact .inl ⟨hl, rfl, rfl⟩
    · rw [if_neg hl] at h
      cases h
  · rw [take_op] at h
    cases hl : l.last with
    | none =>
      rw [hl] at h
      cases h
    | some c =>
      rw [hl] at h
      cases h
      exact .inr ⟨⟨l.joined ++ [(c, op)], none⟩, by simp [Pipeline.tokens, hl], rfl⟩
  · cases h
  · cases h
  · cases h

/-- What the loop has read is empty lines and then the tokens of the line it is at. -/
theorem Reads.tokens {l : Pipeline} {ts : List Token} {line : CommandLine}
    (h : Reads l.line ts line) (hplain : ∀ t ∈ ts, t.Plain) :
    ∃ (k : Nat) (l' : Pipeline), (k = 0 ∨ l = .empty) ∧
      l.tokens ++ ts = blankLines k ++ l'.tokens ∧ line = l'.line := by
  generalize hline : l.line = start at h
  induction h generalizing l with
  | nil =>
    exact ⟨0, l, .inl rfl, by simp [blankLines], hline.symm⟩
  | @cons line line' line'' t ts htake _ ih =>
    subst hline
    have hrest : ∀ u ∈ ts, u.Plain := fun u hu => hplain u (List.mem_cons_of_mem _ hu)
    rcases take_read (hplain t (by simp)) htake with ⟨rfl, rfl, rfl⟩ | ⟨l', htokens, rfl⟩
    · rcases ih (l := .empty) hrest rfl with ⟨k, l', -, htokens, hl'⟩
      refine ⟨k + 1, l', .inr rfl, ?_, hl'⟩
      have hempty : Pipeline.empty.tokens = [] := rfl
      rw [hempty, List.nil_append] at htokens ⊢
      rw [htokens, blankLines, blankLines, List.replicate_succ, List.cons_append]
    · rcases ih hrest rfl with ⟨k, l'', hk, hall, hl''⟩
      rw [htokens, List.append_assoc, List.singleton_append] at hall
      rcases hk with hk | rfl
      · exact ⟨k, l'', .inl hk, hall, hl''⟩
      · have hne : l.tokens ++ [t] ≠ [] := by simp
        exact absurd htokens.symm hne

/-- From the start, the loop reads empty lines and the beginning of a pipeline. -/
theorem reads_iff {ts : List Token} {line : CommandLine} (hplain : ∀ t ∈ ts, t.Plain) :
    Reads .empty ts line ↔
      ∃ (k : Nat) (l : Pipeline), ts = blankLines k ++ l.tokens ∧ line = l.line := by
  constructor
  · intro h
    rcases Reads.tokens (l := .empty) h hplain with ⟨k, l, -, htokens, hline⟩
    exact ⟨k, l, htokens, hline⟩
  · rintro ⟨k, l, rfl, rfl⟩
    exact (reads_blankLines k).append (reads_pipeline l)

end SystemProgramming.Shell
