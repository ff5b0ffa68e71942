import SystemProgramming.Shell.Token

/-!
# The grammar of tokens

What the tokenizer is for: a grammar that says which bytes form which token, given the byte that
follows, and the one kind of input it cannot stand.  `parse_token` decides this grammar: it returns
a token exactly when the input starts with one, and it fails its assertion exactly on that input.
-/

open Fallible

namespace SystemProgramming.Shell

/-- A byte of a word that stands for itself. -/
def isPlain (c : UInt8) : Bool :=
  !(isQuote c || c == backslash || isOperator c || isBlank c || c == newline || c == hash)

/-- A byte that ends a word and is not part of it. -/
def endsWord (c : UInt8) : Bool := isOperator c || c == newline || c == hash

/-- Bytes between two quotes `q`, and what they stand for. -/
inductive Quoted (q : UInt8) : List UInt8 → List UInt8 → Prop
  | nil : Quoted q [] []
  | plain {c : UInt8} {w d : List UInt8} (hq : c ≠ q) (hb : q = doubleQuote → c ≠ backslash) :
      Quoted q w d → Quoted q (c :: w) (c :: d)
  | escape {c : UInt8} {w d : List UInt8} (hq : q = doubleQuote)
      (hc : c = backslash ∨ c = doubleQuote) :
      Quoted q w d → Quoted q (backslash :: c :: w) (c :: d)
  | join {w d : List UInt8} (hq : q = doubleQuote) :
      Quoted q w d → Quoted q (backslash :: newline :: w) d
  | keep {c : UInt8} {w d : List UInt8} (hq : q = doubleQuote) (hb : c ≠ backslash)
      (hd : c ≠ doubleQuote) (hn : c ≠ newline) :
      Quoted q w d → Quoted q (backslash :: c :: w) (backslash :: c :: d)

/-- `Body d w r t`: with the bytes `d` in the word already, the bytes `w` complete the token `t`
when `r` follows. -/
inductive Body : List UInt8 → List UInt8 → List UInt8 → Token → Prop
  | join {d w r : List UInt8} {t : Token} : Body d w r t → Body d (backslash :: newline :: w) r t
  | escape {c : UInt8} {d w r : List UInt8} {t : Token} (hc : c ≠ newline) :
      Body (d ++ [c]) w r t → Body d (backslash :: c :: w) r t
  | plain {c : UInt8} {d w r : List UInt8} {t : Token} (hc : isPlain c = true) :
      Body (d ++ [c]) w r t → Body d (c :: w) r t
  | quoted {q : UInt8} {d e w r : List UInt8} (hq : isQuote q = true) (hw : Quoted q w e) :
      Body d (q :: (w ++ [q])) r ⟨.str, d ++ e⟩
  | blank {c : UInt8} {d r : List UInt8} (hd : d ≠ []) (hc : isBlank c = true) :
      Body d [c] r ⟨.str, d⟩
  | stop {c : UInt8} {d r : List UInt8} (hd : d ≠ []) (hc : endsWord c = true) :
      Body d [] (c :: r) ⟨.str, d⟩
  | comment {w r : List UInt8} (hw : newline ∉ w) :
      Body [] (hash :: (w ++ [newline])) r ⟨.newLine, []⟩
  | doubled {c : UInt8} {r : List UInt8} (hc : isOperator c = true) :
      Body [] [c, c] r ⟨doubledOperator c, []⟩
  | single {b c : UInt8} {r : List UInt8} (hc : isOperator c = true) (hb : b ≠ c) :
      Body [] [c] (b :: r) ⟨singleOperator c, []⟩

/-- `Lexeme w r t`: the bytes `w` are the token `t` when `r` follows. -/
inductive Lexeme : List UInt8 → List UInt8 → Token → Prop
  | skip {c : UInt8} {w r : List UInt8} {t : Token} (hc : isSpace c = true) (hn : c ≠ newline) :
      Lexeme w r t → Lexeme (c :: w) r t
  | newLine {r : List UInt8} : Lexeme [newline] r ⟨.newLine, []⟩
  | body {w r : List UInt8} {t : Token} (hs : ∀ c ∈ (w ++ r).head?, isSpace c = false) :
      Body [] w r t → Lexeme w r t

/-- Line continuations, maybe none, and then a blank or a newline. -/
inductive Gap : List UInt8 → Prop
  | here {c : UInt8} {r : List UInt8} (hc : isBlank c = true ∨ c = newline) : Gap (c :: r)
  | join {s : List UInt8} : Gap s → Gap (backslash :: newline :: s)

/-- A token that begins with a line continuation and gets to a blank or a newline before its first
byte. -/
inductive Stuck : List UInt8 → Prop
  | skip {c : UInt8} {s : List UInt8} (hc : isSpace c = true) (hn : c ≠ newline) :
      Stuck s → Stuck (c :: s)
  | join {s : List UInt8} : Gap s → Stuck (backslash :: newline :: s)

/-! ## Nothing after a token matters but the byte that ends it -/

theorem Body.append {d w r : List UInt8} {t : Token} (h : Body d w r t) (u : List UInt8) :
    Body d w (r ++ u) t := by
  induction h with
  | join _ ih => exact .join ih
  | escape hc _ ih => exact .escape hc ih
  | plain hc _ ih => exact .plain hc ih
  | quoted hq hw => exact .quoted hq hw
  | blank hd hc => exact .blank hd hc
  | stop hd hc => exact .stop hd hc
  | comment hw => exact .comment hw
  | doubled hc => exact .doubled hc
  | single hc hb => exact .single hc hb

theorem Body.ne_nil {d w r : List UInt8} {t : Token} (h : Body d w r t) : w ++ r ≠ [] := by
  cases h <;> simp

/-- A token that starts a word takes at least one byte. -/
theorem Body.pos {d w r : List UInt8} {t : Token} (h : Body d w r t) (hd : d = []) : w ≠ [] := by
  cases h with
  | stop hd' => exact absurd hd hd'
  | _ => simp

theorem Lexeme.append {w r : List UInt8} {t : Token} (h : Lexeme w r t) (u : List UInt8) :
    Lexeme w (r ++ u) t := by
  induction h with
  | skip hc hn _ ih => exact .skip hc hn ih
  | newLine => exact .newLine
  | @body w r t hs hb =>
    refine .body (fun c hc => hs c ?_) (hb.append u)
    rw [← List.append_assoc, List.head?_append_of_ne_nil _ hb.ne_nil] at hc
    exact hc

theorem Lexeme.pos {w r : List UInt8} {t : Token} (h : Lexeme w r t) : 0 < w.length := by
  cases h with
  | skip => simp
  | newLine => simp
  | body _ hb => exact List.length_pos_iff.mpr (hb.pos rfl)

theorem Gap.append {s : List UInt8} (h : Gap s) (u : List UInt8) : Gap (s ++ u) := by
  induction h with
  | here hc => exact .here hc
  | join _ ih => exact .join ih

theorem Stuck.append {s : List UInt8} (h : Stuck s) (u : List UInt8) : Stuck (s ++ u) := by
  induction h with
  | skip hc hn _ ih => exact .skip hc hn ih
  | join hg => exact .join (hg.append u)

/-! ## Classes of bytes -/

theorem quote_cases {q : UInt8} (h : isQuote q = true) : q = singleQuote ∨ q = doubleQuote := by
  simpa [isQuote] using h

theorem blank_isSpace {c : UInt8} (h : isBlank c = true) : isSpace c = true := by
  have hcases : c = space ∨ c = tab ∨ c = carriageReturn := by
    simpa [isBlank, or_assoc] using h
  rcases hcases with rfl | rfl | rfl <;> decide

/-- Every byte is of one class. -/
theorem byte_cases (c : UInt8) : isPlain c = true ∨ isQuote c = true ∨ c = backslash ∨
    isBlank c = true ∨ c = newline ∨ isOperator c = true ∨ c = hash := by
  by_contra hall
  simp only [not_or, Bool.not_eq_true] at hall
  simp [isPlain, hall] at hall

/-! ## One byte of the main loop -/

section scan

variable {c q : UInt8} {d s : List UInt8} (u : Nat)

theorem scan_join : scanToken 0 d u (backslash :: newline :: s) = scanToken 0 d (u + 2) s := by
  rw [scanToken.eq_def]
  simp [isQuote, singleQuote, doubleQuote, backslash]

theorem scan_escape (hc : c ≠ newline) :
    scanToken 0 d u (backslash :: c :: s) = scanToken 0 (d ++ [c]) (u + 2) s := by
  rw [scanToken.eq_def]
  simp [isQuote, singleQuote, doubleQuote, backslash, hc]

theorem scan_escape_end : scanToken 0 d u [backslash] = .ok none := by
  rw [scanToken.eq_def]
  simp [isQuote, singleQuote, doubleQuote, backslash]

theorem scan_plain (hc : isPlain c = true) :
    scanToken 0 d u (c :: s) = scanToken 0 (d ++ [c]) (u + 1) s := by
  have hall : isQuote c = false ∧ c ≠ backslash ∧ isOperator c = false ∧
      isBlank c = false ∧ c ≠ newline ∧ c ≠ hash := by
    simpa [isPlain, and_assoc] using hc
  rcases hall with ⟨h1, h2, h3, h4, h5, h6⟩
  rw [scanToken.eq_def]
  simp only [h1, h2, h3, h4, h5, h6, Bool.false_eq_true, if_false]

theorem scan_open (hq : isQuote q = true) :
    scanToken 0 d u (q :: s) = scanToken q d (u + 1) s := by
  rw [scanToken.eq_def]
  simp only [hq, if_true]
  by_cases hs : s = []
  · rw [if_pos hs, hs, scan_nil]
  · rw [if_neg hs]

theorem scan_blank (hc : isBlank c = true) (hd : d ≠ []) :
    scanToken 0 d u (c :: s) = .ok (some (u + 1, ⟨.str, d⟩)) := by
  have hcases : c = space ∨ c = tab ∨ c = carriageReturn := by
    simpa [isBlank, or_assoc] using hc
  rw [scanToken.eq_def]
  rcases hcases with rfl | rfl | rfl <;>
    simp [isQuote, isOperator, isBlank, space, tab, carriageReturn, singleQuote, doubleQuote,
      backslash, ampersand, bar, greater, hd]

theorem scan_stop (hc : endsWord c = true) (hd : d ≠ []) :
    scanToken 0 d u (c :: s) = .ok (some (u, ⟨.str, d⟩)) := by
  have hcases : c = ampersand ∨ c = bar ∨ c = greater ∨ c = newline ∨ c = hash := by
    simpa [endsWord, isOperator, or_assoc] using hc
  rw [scanToken.eq_def]
  rcases hcases with rfl | rfl | rfl | rfl | rfl <;>
    simp [isQuote, isOperator, isBlank, space, tab, carriageReturn, singleQuote, doubleQuote,
      backslash, ampersand, bar, greater, hash, newline, hd]

/-- The assertion that a word is not empty when a blank or a newline ends it. -/
theorem scan_gap (hc : isBlank c = true ∨ c = newline) :
    scanToken 0 [] u (c :: s) = .error .parseToken := by
  have hcases : c = space ∨ c = tab ∨ c = carriageReturn ∨ c = newline := by
    simpa [isBlank, or_assoc] using hc
  rw [scanToken.eq_def]
  rcases hcases with rfl | rfl | rfl | rfl <;>
    simp [isQuote, isOperator, isBlank, space, tab, carriageReturn, singleQuote, doubleQuote,
      backslash, ampersand, bar, greater, newline]

theorem scan_operator_end (hc : isOperator c = true) :
    scanToken 0 [] u [c] = .ok none := by
  have hcases : c = ampersand ∨ c = bar ∨ c = greater := by
    simpa [isOperator, or_assoc] using hc
  rw [scanToken.eq_def]
  rcases hcases with rfl | rfl | rfl <;>
    simp [isQuote, isOperator, singleQuote, doubleQuote, backslash, ampersand, bar, greater]

theorem scan_operator (b : UInt8) (hc : isOperator c = true) :
    scanToken 0 [] u (c :: b :: s) =
      if b = c then .ok (some (u + 2, ⟨doubledOperator c, []⟩))
      else .ok (some (u + 1, ⟨singleOperator c, []⟩)) := by
  have hcases : c = ampersand ∨ c = bar ∨ c = greater := by
    simpa [isOperator, or_assoc] using hc
  rw [scanToken.eq_def]
  rcases hcases with rfl | rfl | rfl <;>
    simp [isQuote, isOperator, singleQuote, doubleQuote, backslash, ampersand, bar, greater]

theorem scan_hash : scanToken 0 [] u (hash :: s) = .ok (skipComment (u + 1) s) := by
  rw [scanToken.eq_def]
  simp [isQuote, isOperator, isBlank, space, tab, carriageReturn, singleQuote, doubleQuote,
    backslash, ampersand, bar, greater, newline, hash]

theorem skipComment_eq {w r : List UInt8} (hw : newline ∉ w) :
    skipComment u (w ++ newline :: r) = some (u + w.length + 1, ⟨.newLine, []⟩) := by
  induction w generalizing u with
  | nil => simp [skipComment]
  | cons c w ih =>
    have hc : c ≠ newline := fun heq => hw (by simp [heq])
    have hrest : newline ∉ w := fun hmem => hw (List.mem_cons_of_mem _ hmem)
    rw [List.cons_append, skipComment, if_neg hc, ih _ hrest, List.length_cons]
    congr 2
    omega

theorem skipComment_none (hs : newline ∉ s) : skipComment u s = none := by
  induction s generalizing u with
  | nil => rfl
  | cons c s ih =>
    have hc : c ≠ newline := fun heq => hs (by simp [heq])
    rw [skipComment, if_neg hc]
    exact ih _ fun hmem => hs (List.mem_cons_of_mem _ hmem)

/-! ## One byte between quotes -/

theorem scan_close (hq : isQuote q = true) :
    scanToken q d u (q :: s) = .ok (some (u + 1, ⟨.str, d⟩)) := by
  rw [scanToken.eq_def]
  rcases quote_cases hq with rfl | rfl <;> simp [isQuote, singleQuote, doubleQuote]

theorem scan_quoted_plain (hq : isQuote q = true) (hc : c ≠ q)
    (hb : q = doubleQuote → c ≠ backslash) :
    scanToken q d u (c :: s) = scanToken q (d ++ [c]) (u + 1) s := by
  have hq0 : q ≠ 0 := by rcases quote_cases hq with rfl | rfl <;> decide
  rw [scanToken.eq_def]
  by_cases hcb : c = backslash
  · have hsingle : q = singleQuote := by
      rcases quote_cases hq with h | h
      · exact h
      · exact absurd hcb (hb h)
    simp [hcb, hsingle, isQuote, singleQuote, doubleQuote, backslash]
  · simp only [hcb, hq0, hc.symm, ne_eq, not_false_eq_true, if_true, if_false, ite_self]

theorem scan_quoted_escape (hc : c = backslash ∨ c = doubleQuote) :
    scanToken doubleQuote d u (backslash :: c :: s) =
      scanToken doubleQuote (d ++ [c]) (u + 2) s := by
  rw [scanToken.eq_def]
  rcases hc with rfl | rfl <;> simp [isQuote, singleQuote, doubleQuote, backslash, newline]

theorem scan_quoted_join : scanToken doubleQuote d u (backslash :: newline :: s) =
    scanToken doubleQuote d (u + 2) s := by
  rw [scanToken.eq_def]
  simp [isQuote, singleQuote, doubleQuote, backslash, newline]

theorem scan_quoted_keep (hb : c ≠ backslash) (hd : c ≠ doubleQuote) (hn : c ≠ newline) :
    scanToken doubleQuote d u (backslash :: c :: s) =
      scanToken doubleQuote (d ++ [backslash, c]) (u + 2) s := by
  rw [scanToken.eq_def]
  have hquote : isQuote backslash = false := by decide
  have hsingle : doubleQuote ≠ singleQuote := by decide
  have hzero : doubleQuote ≠ 0 := by decide
  simp only [hquote, hsingle, hb, hd, hn, Bool.false_eq_true, if_false, if_true, List.append_assoc,
    List.cons_append, List.nil_append]

theorem scan_quoted_end : scanToken doubleQuote d u [backslash] = .ok none := by
  rw [scanToken.eq_def]
  simp [isQuote, singleQuote, doubleQuote, backslash]

end scan

/-! ## What the grammar derives, the tokenizer returns -/

theorem scan_of_quoted {q : UInt8} (hq : isQuote q = true) {w e : List UInt8} (h : Quoted q w e)
    (u : Nat) (d r : List UInt8) :
    scanToken q d u (w ++ q :: r) = .ok (some (u + w.length + 1, ⟨.str, d ++ e⟩)) := by
  induction h generalizing u d with
  | nil => simp [scan_close u hq]
  | @plain c w e hc hb _ ih =>
    rw [List.cons_append, scan_quoted_plain u hq hc hb, ih, List.length_cons, List.append_assoc]
    congr 4
    omega
  | @escape c w e hd hc _ ih =>
    subst hd
    rw [List.cons_append, List.cons_append, scan_quoted_escape u hc, ih, List.length_cons,
      List.length_cons, List.append_assoc]
    congr 4
    omega
  | @join w e hd _ ih =>
    subst hd
    rw [List.cons_append, List.cons_append, scan_quoted_join, ih, List.length_cons,
      List.length_cons]
    congr 4
    omega
  | @keep c w e hd hb hc hn _ ih =>
    subst hd
    rw [List.cons_append, List.cons_append, scan_quoted_keep u hb hc hn, ih, List.length_cons,
      List.length_cons, List.append_assoc]
    congr 4
    omega

theorem scan_of_body {d w r : List UInt8} {t : Token} (h : Body d w r t) (u : Nat) :
    scanToken 0 d u (w ++ r) = .ok (some (u + w.length, t)) := by
  -- One case for each way `Body` goes on, which is one branch of the scanner.
  induction h generalizing u with
  | @join d w r t _ ih =>
    rw [List.cons_append, List.cons_append, scan_join, ih, List.length_cons, List.length_cons]
    congr 3
    omega
  | @escape c d w r t hc _ ih =>
    rw [List.cons_append, List.cons_append, scan_escape u hc, ih, List.length_cons,
      List.length_cons]
    congr 3
    omega
  | @plain c d w r t hc _ ih =>
    rw [List.cons_append, scan_plain u hc, ih, List.length_cons]
    congr 3
    omega
  | @quoted q d e w r hq hw =>
    rw [List.cons_append, List.append_assoc, List.singleton_append, scan_open u hq,
      scan_of_quoted hq hw, List.length_cons, List.length_append, List.length_singleton]
    congr 3
    omega
  | blank hd hc => exact scan_blank u hc hd
  | stop hd hc => exact scan_stop u hc hd
  | @comment w r hw =>
    rw [List.cons_append, List.append_assoc, List.singleton_append, scan_hash,
      skipComment_eq _ hw, List.length_cons, List.length_append, List.length_singleton]
    congr 3
    omega
  | doubled hc =>
    rw [List.cons_append, List.cons_append, scan_operator u _ hc, if_pos rfl]
    rfl
  | single hc hb =>
    rw [List.cons_append, List.nil_append, scan_operator u _ hc, if_neg hb]
    rfl

theorem scan_of_gap {s : List UInt8} (h : Gap s) (u : Nat) :
    scanToken 0 [] u s = .error .parseToken := by
  induction h generalizing u with
  | here hc => exact scan_gap u hc
  | join _ ih => rw [scan_join, ih]

theorem parseTokenFrom_space {c : UInt8} {s : List UInt8} (hc : isSpace c = true)
    (hn : c ≠ newline) (u : Nat) : parseTokenFrom u (c :: s) = parseTokenFrom (u + 1) s := by
  rw [parseTokenFrom]
  simp only [hc, hn, Bool.not_true, Bool.false_eq_true, if_false]

theorem parseTokenFrom_body {s : List UInt8} (hs : ∀ c ∈ s.head?, isSpace c = false) (u : Nat) :
    parseTokenFrom u s = scanToken 0 [] u s := by
  cases s with
  | nil => rfl
  | cons c s =>
    have hc : isSpace c = false := hs c rfl
    rw [parseTokenFrom]
    simp only [hc, Bool.not_false, if_true]

theorem parseTokenFrom_of_lexeme {w r : List UInt8} {t : Token} (h : Lexeme w r t) (u : Nat) :
    parseTokenFrom u (w ++ r) = .ok (some (u + w.length, t)) := by
  induction h generalizing u with
  | @skip c w r t hc hn _ ih =>
    rw [List.cons_append, parseTokenFrom_space hc hn, ih, List.length_cons]
    congr 3
    omega
  | newLine => rfl
  | body hs hb => rw [parseTokenFrom_body hs, scan_of_body hb]

theorem parseTokenFrom_of_stuck {s : List UInt8} (h : Stuck s) (u : Nat) :
    parseTokenFrom u s = .error .parseToken := by
  induction h generalizing u with
  | skip hc hn _ ih => rw [parseTokenFrom_space hc hn, ih]
  | join hg =>
    have hs : isSpace backslash = false := by decide
    rw [parseTokenFrom_body (by simpa using hs), scan_of_gap (.join hg)]

/-! ## Every input starts with a token, is stuck, or needs more bytes -/

theorem quoted_or_open {q : UInt8} (hq : isQuote q = true) (n : Nat) (s : List UInt8)
    (hn : s.length ≤ n) :
    (∃ w e r, s = w ++ q :: r ∧ Quoted q w e) ∨ ∀ u d, scanToken q d u s = .ok none := by
  induction n generalizing s with
  | zero =>
    obtain rfl : s = [] := List.length_eq_zero_iff.mp (by omega)
    exact .inr fun u d => scan_nil q d u
  | succ n ih =>
    cases s with
    | nil => exact .inr fun u d => scan_nil q d u
    | cons c s =>
      rw [List.length_cons] at hn
      -- the quote ends here
      by_cases hc : c = q
      · exact .inl ⟨[], [], s, by rw [hc]; rfl, .nil⟩
      by_cases hb : q = doubleQuote ∧ c = backslash
      · -- an escape between double quotes takes two bytes
        obtain ⟨rfl, rfl⟩ := hb
        cases s with
        | nil => exact .inr fun u d => scan_quoted_end u
        | cons b s =>
          rw [List.length_cons] at hn
          by_cases hesc : b = backslash ∨ b = doubleQuote
          · rcases ih s (by omega) with ⟨w, e, r, rfl, hw⟩ | hopen
            · exact .inl ⟨_, _, r, rfl, .escape rfl hesc hw⟩
            · exact .inr fun u d => by rw [scan_quoted_escape u hesc, hopen]
          · by_cases hnl : b = newline
            · subst hnl
              rcases ih s (by omega) with ⟨w, e, r, rfl, hw⟩ | hopen
              · exact .inl ⟨_, _, r, rfl, .join rfl hw⟩
              · exact .inr fun u d => by rw [scan_quoted_join, hopen]
            · -- before any other byte the backslash is kept
              have hb : b ≠ backslash := fun h => hesc (.inl h)
              have hd : b ≠ doubleQuote := fun h => hesc (.inr h)
              rcases ih s (by omega) with ⟨w, e, r, rfl, hw⟩ | hopen
              · exact .inl ⟨_, _, r, rfl, .keep rfl hb hd hnl hw⟩
              · exact .inr fun u d => by rw [scan_quoted_keep u hb hd hnl, hopen]
      · -- any other byte stands for itself
        have hplain : q = doubleQuote → c ≠ backslash := fun h h' => hb ⟨h, h'⟩
        rcases ih s (by omega) with ⟨w, e, r, rfl, hw⟩ | hopen
        · exact .inl ⟨_, _, r, rfl, .plain hc hplain hw⟩
        · exact .inr fun u d => by rw [scan_quoted_plain u hq hc hplain, hopen]

theorem body_or_gap_or_open (n : Nat) (s d : List UInt8) (hn : s.length ≤ n) :
    (∃ w r t, s = w ++ r ∧ Body d w r t) ∨ (d = [] ∧ Gap s) ∨
      ∀ u, scanToken 0 d u s = .ok none := by
  induction n generalizing s d with
  | zero =>
    obtain rfl : s = [] := List.length_eq_zero_iff.mp (by omega)
    exact .inr (.inr fun u => scan_nil 0 d u)
  | succ n ih =>
    cases s with
    | nil => exact .inr (.inr fun u => scan_nil 0 d u)
    | cons c s =>
      rw [List.length_cons] at hn
      rcases byte_cases c with hc | hc | rfl | hc | rfl | hc | rfl
      · -- a byte of the word
        rcases ih s (d ++ [c]) (by omega) with ⟨w, r, t, rfl, hb⟩ | ⟨hd, -⟩ | hopen
        · exact .inl ⟨_, r, t, rfl, .plain hc hb⟩
        · simp at hd
        · exact .inr (.inr fun u => by rw [scan_plain u hc, hopen])
      · -- a quote
        rcases quoted_or_open hc s.length s (le_refl _) with ⟨w, e, r, rfl, hw⟩ | hopen
        · exact .inl ⟨c :: (w ++ [c]), r, _, by simp, .quoted hc hw⟩
        · exact .inr (.inr fun u => by rw [scan_open u hc, hopen])
      · -- a backslash, alone, before a newline or before another byte
        cases s with
        | nil => exact .inr (.inr fun u => scan_escape_end u)
        | cons b s =>
          rw [List.length_cons] at hn
          by_cases hb : b = newline
          · subst hb
            rcases ih s d (by omega) with ⟨w, r, t, rfl, hw⟩ | ⟨hd, hg⟩ | hopen
            · exact .inl ⟨_, r, t, rfl, .join hw⟩
            · exact .inr (.inl ⟨hd, .join hg⟩)
            · exact .inr (.inr fun u => by rw [scan_join, hopen])
          · rcases ih s (d ++ [b]) (by omega) with ⟨w, r, t, rfl, hw⟩ | ⟨hd, -⟩ | hopen
            · exact .inl ⟨_, r, t, rfl, .escape hb hw⟩
            · simp at hd
            · exact .inr (.inr fun u => by rw [scan_escape u hb, hopen])
      · -- a blank
        by_cases hd : d = []
        · exact .inr (.inl ⟨hd, .here (.inl hc)⟩)
        · exact .inl ⟨[c], s, _, rfl, .blank hd hc⟩
      · -- the newline, which is a token of its own only at the beginning
        by_cases hd : d = []
        · exact .inr (.inl ⟨hd, .here (.inr rfl)⟩)
        · exact .inl ⟨[], newline :: s, _, rfl, .stop hd (by decide)⟩
      · -- an operator, single or doubled
        by_cases hd : d = []
        · subst hd
          cases s with
          | nil => exact .inr (.inr fun u => scan_operator_end u hc)
          | cons b s =>
            by_cases hb : b = c
            · exact .inl ⟨[c, c], s, _, by rw [hb]; rfl, .doubled hc⟩
            · exact .inl ⟨[c], b :: s, _, rfl, .single hc hb⟩
        · refine .inl ⟨[], c :: s, _, rfl, .stop hd ?_⟩
          simp [endsWord, hc]
      · -- a comment, which goes on to the end of the line
        by_cases hd : d = []
        · subst hd
          by_cases hmem : newline ∈ s
          · rcases List.eq_append_cons_of_mem hmem with ⟨w, r, rfl, hw⟩
            exact .inl ⟨hash :: (w ++ [newline]), r, _, by simp, .comment hw⟩
          · exact .inr (.inr fun u => by rw [scan_hash, skipComment_none _ hmem])
        · exact .inl ⟨[], hash :: s, _, rfl, .stop hd (by decide)⟩

theorem lexeme_or_stuck_or_open (s : List UInt8) :
    (∃ w r t, s = w ++ r ∧ Lexeme w r t) ∨ Stuck s ∨ ∀ u, parseTokenFrom u s = .ok none := by
  induction s with
  | nil => exact .inr (.inr fun u => scan_nil 0 [] u)
  | cons c s ih =>
    by_cases hc : isSpace c = true
    · by_cases hn : c = newline
      · subst hn
        exact .inl ⟨[newline], s, _, rfl, .newLine⟩
      · rcases ih with ⟨w, r, t, rfl, hw⟩ | hstuck | hopen
        · exact .inl ⟨c :: w, r, t, rfl, .skip hc hn hw⟩
        · exact .inr (.inl (.skip hc hn hstuck))
        · exact .inr (.inr fun u => by rw [parseTokenFrom_space hc hn, hopen])
    · have hs : ∀ b ∈ (c :: s).head?, isSpace b = false := by simpa using hc
      rcases body_or_gap_or_open (c :: s).length (c :: s) [] (le_refl _) with
        ⟨w, r, t, hsplit, hb⟩ | ⟨-, hg⟩ | hopen
      · exact .inl ⟨w, r, t, hsplit, .body (hsplit ▸ hs) hb⟩
      · -- the first byte is no space, so the gap begins with a line continuation
        cases hg with
        | here hblank =>
          rcases hblank with hblank | rfl
          · exact absurd (blank_isSpace hblank) hc
          · exact absurd (by decide) hc
        | join hg => exact .inr (.inl (.join hg))
      · exact .inr (.inr fun u => by rw [parseTokenFrom_body hs, hopen])

/-- `parse_token` returns a token exactly when its input starts with one. -/
theorem parseToken_eq_some_iff {s : List UInt8} {n : Nat} {t : Token} :
    parseToken s = .ok (some (n, t)) ↔ ∃ w r, s = w ++ r ∧ w.length = n ∧ Lexeme w r t := by
  constructor
  · intro h
    rcases lexeme_or_stuck_or_open s with ⟨w, r, t', rfl, hw⟩ | hstuck | hopen
    · have hparse := parseTokenFrom_of_lexeme hw 0
      rw [parseToken, hparse, Nat.zero_add] at h
      have hboth := Prod.mk.inj (Option.some.inj (Except.ok.inj h))
      exact ⟨w, r, rfl, hboth.1, hboth.2 ▸ hw⟩
    · rw [parseToken, parseTokenFrom_of_stuck hstuck] at h
      cases h
    · rw [parseToken, hopen] at h
      cases h
  · rintro ⟨w, r, rfl, rfl, hw⟩
    rw [parseToken, parseTokenFrom_of_lexeme hw, Nat.zero_add]

/-- The assertions of `parse_token` fail exactly on stuck input. -/
theorem parseToken_eq_error_iff {s : List UInt8} {e : Fault} :
    parseToken s = .error e ↔ e = .parseToken ∧ Stuck s := by
  constructor
  · intro h
    rcases lexeme_or_stuck_or_open s with ⟨w, r, t, rfl, hw⟩ | hstuck | hopen
    · rw [parseToken, parseTokenFrom_of_lexeme hw] at h
      cases h
    · rw [parseToken, parseTokenFrom_of_stuck hstuck] at h
      cases h
      exact ⟨rfl, hstuck⟩
    · rw [parseToken, hopen] at h
      cases h
  · rintro ⟨rfl, hstuck⟩
    rw [parseToken, parseTokenFrom_of_stuck hstuck]

/-- A token found, or the assertion, does not depend on the bytes that are still to come. -/
theorem parseToken_append {s : List UInt8} (h : parseToken s ≠ .ok none) (u : List UInt8) :
    parseToken (s ++ u) = parseToken s := by
  cases hs : parseToken s with
  | error e =>
    rcases parseToken_eq_error_iff.mp hs with ⟨rfl, hstuck⟩
    exact parseToken_eq_error_iff.mpr ⟨rfl, hstuck.append u⟩
  | ok o =>
    cases o with
    | none => exact absurd hs h
    | some nt =>
      rcases parseToken_eq_some_iff.mp hs with ⟨w, r, rfl, hw, hlex⟩
      exact parseToken_eq_some_iff.mpr ⟨w, r ++ u, by rw [List.append_assoc], hw, hlex.append u⟩

theorem parseToken_used {s : List UInt8} {n : Nat} {t : Token}
    (h : parseToken s = .ok (some (n, t))) : 0 < n ∧ n ≤ s.length := by
  rcases parseToken_eq_some_iff.mp h with ⟨w, r, rfl, rfl, hw⟩
  exact ⟨hw.pos, by rw [List.length_append]; exact Nat.le_add_right _ _⟩

theorem parseToken_nil : parseToken [] = .ok none := scan_nil 0 [] 0

end SystemProgramming.Shell
