import Mathlib.Data.List.Basic

/-!
The lexer of QEMU's JSON front end (`qobject/json-lexer.c`). The table `json_lexer[state][ch]`
gives for a state and a byte either the next state or, at the end of a token, the token's type;
a type the table gives for every ASCII byte of a row (`TERMINAL`) ends the token before that
byte, which is read again from `IN_START`. A byte is a `UInt8`, as `(uint8_t)ch` indexes the
table. The position `x`, `y` the lexer passes along with a token is left out: nothing reads it.
-/

namespace Qemu.Qobject

inductive JsonLexerState
  | IN_ERROR | IN_DQ_UCODE3 | IN_DQ_UCODE2 | IN_DQ_UCODE1 | IN_DQ_UCODE0 | IN_DQ_STRING_ESCAPE
  | IN_DQ_STRING | IN_SQ_UCODE3 | IN_SQ_UCODE2 | IN_SQ_UCODE1 | IN_SQ_UCODE0 | IN_SQ_STRING_ESCAPE
  | IN_SQ_STRING | IN_ZERO | IN_DIGITS | IN_DIGIT | IN_EXP_E | IN_MANTISSA | IN_MANTISSA_DIGITS
  | IN_NONZERO_NUMBER | IN_NEG_NONZERO_NUMBER | IN_KEYWORD | IN_ESCAPE | IN_ESCAPE_L | IN_ESCAPE_LL
  | IN_ESCAPE_I | IN_ESCAPE_I6 | IN_ESCAPE_I64 | IN_WHITESPACE | IN_START
  deriving DecidableEq, Repr

inductive JSONTokenType
  | JSON_OPERATOR | JSON_INTEGER | JSON_FLOAT | JSON_KEYWORD | JSON_STRING | JSON_ESCAPE | JSON_SKIP
  | JSON_ERROR
  deriving DecidableEq, Repr

-- A number in the table, which is a state below 100 and a token type from 100 on; a token is
-- emitted with such a number as its type.
inductive LexEntry
  | state (s : JsonLexerState)
  | token (t : JSONTokenType)
  deriving DecidableEq, Repr

-- A token as `json_message_process_token` stores it: its type and its text.
structure JSONToken where
  type : LexEntry
  token : List UInt8
  deriving DecidableEq, Repr

def MAX_TOKEN_SIZE : Nat := 64 <<< 20

open JsonLexerState JSONTokenType

section Table

def isxdigit (ch : UInt8) : Bool :=
  ('0'.toUInt8 ≤ ch && ch ≤ '9'.toUInt8) || ('a'.toUInt8 ≤ ch && ch ≤ 'f'.toUInt8) ||
    ('A'.toUInt8 ≤ ch && ch ≤ 'F'.toUInt8)

def isdigit (ch : UInt8) : Bool := '0'.toUInt8 ≤ ch && ch ≤ '9'.toUInt8

-- A row of four hex digits of a \u escape.
def hexRow (next : JsonLexerState) (ch : UInt8) : LexEntry :=
  if isxdigit ch then .state next else .state IN_ERROR

-- `TERMINAL(t)`: the type for every byte up to 0x7F that the row does not name.
def terminal (t : JSONTokenType) (ch : UInt8) : LexEntry :=
  if ch ≤ 0x7F then .token t else .state IN_ERROR

-- Bytes a string may hold as they are: `[1 ... 0xBF]` and `[0xC2 ... 0xF4]`.
def stringByte (ch : UInt8) : Bool := (1 ≤ ch && ch ≤ 0xBF) || (0xC2 ≤ ch && ch ≤ 0xF4)

def json_lexer : JsonLexerState → UInt8 → LexEntry
  | IN_DQ_UCODE3, ch => hexRow IN_DQ_STRING ch
  | IN_DQ_UCODE2, ch => hexRow IN_DQ_UCODE3 ch
  | IN_DQ_UCODE1, ch => hexRow IN_DQ_UCODE2 ch
  | IN_DQ_UCODE0, ch => hexRow IN_DQ_UCODE1 ch
  | IN_DQ_STRING_ESCAPE, ch =>
    if ch ∈ ['b', 'f', 'n', 'r', 't', '/', '\x5c', '\x27', '\x22'].map Char.toUInt8 then
      .state IN_DQ_STRING
    else if ch = 'u'.toUInt8 then .state IN_DQ_UCODE0
    else .state IN_ERROR
  | IN_DQ_STRING, ch =>
    if ch = '\x5c'.toUInt8 then .state IN_DQ_STRING_ESCAPE
    else if ch = '\x22'.toUInt8 then .token JSON_STRING
    else if stringByte ch then .state IN_DQ_STRING
    else .state IN_ERROR
  | IN_SQ_UCODE3, ch => hexRow IN_SQ_STRING ch
  | IN_SQ_UCODE2, ch => hexRow IN_SQ_UCODE3 ch
  | IN_SQ_UCODE1, ch => hexRow IN_SQ_UCODE2 ch
  | IN_SQ_UCODE0, ch => hexRow IN_SQ_UCODE1 ch
  | IN_SQ_STRING_ESCAPE, ch =>
    if ch ∈ ['b', 'f', 'n', 'r', 't', '\x27', '\x22'].map Char.toUInt8 then .state IN_SQ_STRING
    -- the table sends these two to the double quote string
    else if ch ∈ ['/', '\x5c'].map Char.toUInt8 then .state IN_DQ_STRING
    else if ch = 'u'.toUInt8 then .state IN_SQ_UCODE0
    else .state IN_ERROR
  | IN_SQ_STRING, ch =>
    if ch = '\x5c'.toUInt8 then .state IN_SQ_STRING_ESCAPE
    else if ch = '\x27'.toUInt8 then .token JSON_STRING
    else if stringByte ch then .state IN_SQ_STRING
    else .state IN_ERROR
  | IN_ZERO, ch =>
    if isdigit ch then .state IN_ERROR
    else if ch = '.'.toUInt8 then .state IN_MANTISSA
    else terminal JSON_INTEGER ch
  | IN_DIGITS, ch => if isdigit ch then .state IN_DIGITS else terminal JSON_FLOAT ch
  | IN_DIGIT, ch => if isdigit ch then .state IN_DIGITS else .state IN_ERROR
  | IN_EXP_E, ch =>
    if ch = '-'.toUInt8 ∨ ch = '+'.toUInt8 then .state IN_DIGIT
    else if isdigit ch then .state IN_DIGITS
    else .state IN_ERROR
  | IN_MANTISSA_DIGITS, ch =>
    if isdigit ch then .state IN_MANTISSA_DIGITS
    else if ch = 'e'.toUInt8 ∨ ch = 'E'.toUInt8 then .state IN_EXP_E
    else terminal JSON_FLOAT ch
  | IN_MANTISSA, ch => if isdigit ch then .state IN_MANTISSA_DIGITS else .state IN_ERROR
  | IN_NONZERO_NUMBER, ch =>
    if isdigit ch then .state IN_NONZERO_NUMBER
    else if ch = 'e'.toUInt8 ∨ ch = 'E'.toUInt8 then .state IN_EXP_E
    else if ch = '.'.toUInt8 then .state IN_MANTISSA
    else terminal JSON_INTEGER ch
  | IN_NEG_NONZERO_NUMBER, ch =>
    if ch = '0'.toUInt8 then .state IN_ZERO
    else if isdigit ch then .state IN_NONZERO_NUMBER
    else .state IN_ERROR
  | IN_KEYWORD, ch =>
    if 'a'.toUInt8 ≤ ch ∧ ch ≤ 'z'.toUInt8 then .state IN_KEYWORD else terminal JSON_KEYWORD ch
  | IN_WHITESPACE, ch =>
    if ch ∈ [' ', '\t', '\r', '\n'].map Char.toUInt8 then .state IN_WHITESPACE
    else terminal JSON_SKIP ch
  | IN_ESCAPE_LL, ch => if ch = 'd'.toUInt8 then .token JSON_ESCAPE else .state IN_ERROR
  | IN_ESCAPE_L, ch =>
    if ch = 'd'.toUInt8 then .token JSON_ESCAPE
    else if ch = 'l'.toUInt8 then .state IN_ESCAPE_LL
    else .state IN_ERROR
  | IN_ESCAPE_I64, ch => if ch = 'd'.toUInt8 then .token JSON_ESCAPE else .state IN_ERROR
  | IN_ESCAPE_I6, ch => if ch = '4'.toUInt8 then .state IN_ESCAPE_I64 else .state IN_ERROR
  | IN_ESCAPE_I, ch => if ch = '6'.toUInt8 then .state IN_ESCAPE_I6 else .state IN_ERROR
  | IN_ESCAPE, ch =>
    if ch ∈ ['d', 'i', 'p', 's', 'f'].map Char.toUInt8 then .token JSON_ESCAPE
    else if ch = 'l'.toUInt8 then .state IN_ESCAPE_L
    else if ch = 'I'.toUInt8 then .state IN_ESCAPE_I
    else .state IN_ERROR
  | IN_START, ch =>
    if ch = '\x22'.toUInt8 then .state IN_DQ_STRING
    else if ch = '\x27'.toUInt8 then .state IN_SQ_STRING
    else if ch = '0'.toUInt8 then .state IN_ZERO
    else if isdigit ch then .state IN_NONZERO_NUMBER
    else if ch = '-'.toUInt8 then .state IN_NEG_NONZERO_NUMBER
    else if ch ∈ ['\x7b', '\x7d', '[', ']', ',', ':'].map Char.toUInt8 then .token JSON_OPERATOR
    else if 'a'.toUInt8 ≤ ch ∧ ch ≤ 'z'.toUInt8 then .state IN_KEYWORD
    else if ch = '%'.toUInt8 then .state IN_ESCAPE
    else if ch ∈ [' ', '\t', '\r', '\n'].map Char.toUInt8 then .state IN_WHITESPACE
    else .state IN_ERROR
  -- the row of IN_ERROR is all zero
  | IN_ERROR, _ => .state IN_ERROR

-- `TERMINAL_NEEDED_LOOKAHEAD`
def TERMINAL_NEEDED_LOOKAHEAD (old_state : JsonLexerState) (terminal : LexEntry) : Bool :=
  json_lexer old_state 0 == terminal

end Table

structure JSONLexer where
  state : JsonLexerState
  token : List UInt8
  deriving DecidableEq, Repr

def json_lexer_init : JSONLexer := ⟨IN_START, []⟩

-- The `do { ... } while (!char_consumed && !flush)` loop of `json_lexer_feed_char`: the lexer
-- after it, the tokens emitted, and whether it left through the `return 0` of the error case. A
-- pass that does not consume `ch` leaves the lexer in `IN_START`, from which the next pass
-- consumes it or fails, so two passes are enough (`feedLoop_of_two_le`).
def feedLoop (ch : UInt8) (flush : Bool) : Nat → JSONLexer → JSONLexer × List JSONToken × Bool
  | 0, lexer => (lexer, [], false)
  | fuel + 1, lexer =>
    let new_state := json_lexer lexer.state ch
    let char_consumed := !TERMINAL_NEEDED_LOOKAHEAD lexer.state new_state
    let token := if char_consumed then lexer.token ++ [ch] else lexer.token
    -- `while (!char_consumed && !flush)`, after the pass left the lexer at `next`
    let proceed := fun (next : JSONLexer) (out : List JSONToken) =>
      if !char_consumed && !flush then
        let r := feedLoop ch flush fuel next
        (r.1, out ++ r.2.1, r.2.2)
      else (next, out, false)
    match new_state with
    | .state IN_ERROR => (json_lexer_init, [⟨.token JSON_ERROR, token⟩], true)
    | .state s => proceed ⟨s, token⟩ []
    | .token JSON_SKIP => proceed json_lexer_init []
    -- the table holds no JSON_ERROR, so this is JSON_OPERATOR ... JSON_STRING
    | .token t => proceed json_lexer_init [⟨.token t, token⟩]

-- Column 0 of every row is an error or, in a `TERMINAL` row, the row's token type.
theorem json_lexer_zero (s : JsonLexerState) :
    json_lexer s 0 = .state IN_ERROR ∨ ∃ t, json_lexer s 0 = .token t := by
  cases s <;> first | exact .inl rfl | exact .inr ⟨_, rfl⟩

-- From `IN_START` a pass consumes the byte or fails, so it never runs the loop again.
theorem feedLoop_init_succ (ch : UInt8) (flush : Bool) (m : Nat) :
    feedLoop ch flush (m + 1) json_lexer_init = feedLoop ch flush 1 json_lexer_init := by
  have h0 : json_lexer IN_START 0 = .state IN_ERROR := rfl
  simp only [feedLoop, json_lexer_init, TERMINAL_NEEDED_LOOKAHEAD, h0]
  split
  · rfl
  · next _ s hs heq => simp [heq, Ne.symm hs]
  · next _ heq => simp [heq]
  · next _ t _ heq => simp [heq]

-- A pass that does not consume the byte hands it to `IN_START`, so the loop runs on from there.
theorem feedLoop_succ_congr (ch : UInt8) (flush : Bool) (lexer : JSONLexer) {a b : Nat}
    (h : feedLoop ch flush a json_lexer_init = feedLoop ch flush b json_lexer_init) :
    feedLoop ch flush (a + 1) lexer = feedLoop ch flush (b + 1) lexer := by
  simp only [feedLoop, TERMINAL_NEEDED_LOOKAHEAD]
  split
  · rfl
  · next _ s hs heq =>
    -- column 0 holds no state but IN_ERROR, so a pass to a state consumes the byte
    have hne : json_lexer lexer.state 0 ≠ .state s := by
      rcases json_lexer_zero lexer.state with h0 | ⟨t, h0⟩ <;> rw [h0]
      · exact fun he => hs (LexEntry.state.inj he).symm
      · exact LexEntry.noConfusion
    simp [heq, hne]
  · rw [h]
  · rw [h]

theorem feedLoop_of_two_le (ch : UInt8) (flush : Bool) (lexer : JSONLexer) {n : Nat} (hn : 2 ≤ n) :
    feedLoop ch flush n lexer = feedLoop ch flush 2 lexer := by
  obtain ⟨m, rfl⟩ : ∃ m, n = m + 2 := ⟨n - 2, by omega⟩
  exact feedLoop_succ_congr ch flush lexer (feedLoop_init_succ ch flush m)

def json_lexer_feed_char (lexer : JSONLexer) (ch : UInt8) (flush : Bool) :
    JSONLexer × List JSONToken :=
  let (lexer, out, returned) := feedLoop ch flush 2 lexer
  if returned then (lexer, out)
  -- do not let a single token grow to an arbitrarily large size
  else if lexer.token.length > MAX_TOKEN_SIZE then
    (json_lexer_init, out ++ [⟨.state lexer.state, lexer.token⟩])
  else (lexer, out)

def json_lexer_feed (lexer : JSONLexer) : List UInt8 → JSONLexer × List JSONToken
  | [] => (lexer, [])
  | ch :: buffer =>
    let (lexer, out) := json_lexer_feed_char lexer ch false
    let (lexer, out') := json_lexer_feed lexer buffer
    (lexer, out ++ out')

def json_lexer_flush (lexer : JSONLexer) : JSONLexer × List JSONToken :=
  if lexer.state = IN_START then (lexer, []) else json_lexer_feed_char lexer 0 true

-- An operator is a token of its own: from `IN_START` its byte is emitted at once.
theorem json_lexer_feed_char_operator {ch : UInt8}
    (hch : ch ∈ ['\x7b', '\x7d', '[', ']', ',', ':'].map Char.toUInt8) (flush : Bool) :
    json_lexer_feed_char json_lexer_init ch flush =
      (json_lexer_init, [⟨.token JSON_OPERATOR, [ch]⟩]) := by
  simp only [List.map_cons, List.map_nil, List.mem_cons, List.not_mem_nil, or_false] at hch
  rcases hch with rfl | rfl | rfl | rfl | rfl | rfl <;> cases flush <;> rfl

theorem json_lexer_feed_replicate_operator {ch : UInt8}
    (hch : ch ∈ ['\x7b', '\x7d', '[', ']', ',', ':'].map Char.toUInt8) (n : Nat) :
    json_lexer_feed json_lexer_init (List.replicate n ch) =
      (json_lexer_init, List.replicate n ⟨.token JSON_OPERATOR, [ch]⟩) := by
  induction n with
  | zero => rfl
  | succ n ih =>
    rw [List.replicate_succ, json_lexer_feed, json_lexer_feed_char_operator hch]
    dsimp only
    rw [ih, List.replicate_succ, List.singleton_append]

-- `'\\'`, a single-quoted string that holds one escaped backslash: after the escape the lexer
-- is in the double-quoted string, where the closing quote is one more character. No token comes
-- out, and a flush ends the text as a lexical error.
theorem json_lexer_feed_sq_escaped_backslash :
    json_lexer_feed json_lexer_init [0x27, 0x5c, 0x5c, 0x27] =
        (⟨IN_DQ_STRING, [0x27, 0x5c, 0x5c, 0x27]⟩, []) ∧
      json_lexer_flush ⟨IN_DQ_STRING, [0x27, 0x5c, 0x5c, 0x27]⟩ =
        (json_lexer_init, [⟨.token JSON_ERROR, [0x27, 0x5c, 0x5c, 0x27]⟩]) := by
  decide

end Qemu.Qobject
