import Qemu.Qobject.JsonStreamer
import Qemu.Qobject.QdictMap

/-!
The parser of the JSON front end (`qobject/json-parser.c`): a recursive descent over the token
list with backtracking. The context is the list and a position; `parser_context_pop_token` and
`parser_context_peek_token` read the token at the position after `g_assert(pos < count)`,
whose failure aborts the program (`ParseAbort`). Each rule saves the position on entry and
restores it when it fails (`goto out`), so a rule returns its object or `NULL` and the position
it leaves, never before the one it started from. `pop` never returns `NULL`, so the
`token == NULL` tests after it are dead and left out.

`parse_escape` is modelled for `ap == NULL`, the only way the QMP monitor and the guest agent
call `json_parser_parse`. A parsed object is kept with the `qdict_put_obj` calls that build it,
so its map is `qdictOf` of them; a float keeps the text `strtod` converts. Parse errors only
set `ctxt->err`, which is left out.
-/

namespace Qemu.Qobject

open JsonLexerState JSONTokenType

inductive QObject
  | qint (value : Int)
  | qfloat (text : List UInt8)
  | qbool (value : Bool)
  | qstring (value : List UInt8)
  | qlist (items : List QObject)
  | qdict (ops : List (QDictOp QObject))

-- The `g_assert(ctxt->tokens.pos < ctxt->tokens.count)` that fails.
inductive ParseAbort
  | pop
  | peek
  deriving DecidableEq, Repr

/-! ### Tokens and strings -/

-- The bytes of a C string up to its NUL.
def cstr (s : List UInt8) : List UInt8 := s.takeWhile (· ≠ 0)

def token_is_operator (token : JSONToken) (op : UInt8) : Bool :=
  token.type == .token JSON_OPERATOR && cstrAt token.token 0 == op && cstrAt token.token 1 == 0

def token_is_keyword (token : JSONToken) (value : List UInt8) : Bool :=
  token.type == .token JSON_KEYWORD && cstr token.token == value

-- The bytes `wchar_to_utf8` writes before the terminating NUL.
def wchar_to_utf8 (wchar : Nat) : List UInt8 :=
  if wchar ≤ 0x007F then [(wchar &&& 0x7F).toUInt8]
  else if wchar ≤ 0x07FF then
    [(0xC0 ||| ((wchar >>> 6) &&& 0x1F)).toUInt8, (0x80 ||| (wchar &&& 0x3F)).toUInt8]
  else
    [(0xE0 ||| ((wchar >>> 12) &&& 0x0F)).toUInt8, (0x80 ||| ((wchar >>> 6) &&& 0x3F)).toUInt8,
      (0x80 ||| (wchar &&& 0x3F)).toUInt8]

def hex2decimal (ch : UInt8) : Int :=
  if '0'.toUInt8 ≤ ch ∧ ch ≤ '9'.toUInt8 then (ch - '0'.toUInt8).toNat
  else if 'a'.toUInt8 ≤ ch ∧ ch ≤ 'f'.toUInt8 then 10 + (ch - 'a'.toUInt8).toNat
  else if 'A'.toUInt8 ≤ ch ∧ ch ≤ 'F'.toUInt8 then 10 + (ch - 'A'.toUInt8).toNat
  else -1

-- The two-character escapes and the byte each stands for.
def simpleEscape (ch : UInt8) : Option UInt8 :=
  if ch = '\x22'.toUInt8 then some '\x22'.toUInt8
  else if ch = '\x27'.toUInt8 then some '\x27'.toUInt8
  else if ch = '\x5c'.toUInt8 then some '\x5c'.toUInt8
  else if ch = '/'.toUInt8 then some '/'.toUInt8
  else if ch = 'b'.toUInt8 then some 0x08
  else if ch = 'f'.toUInt8 then some 0x0C
  else if ch = 'n'.toUInt8 then some '\n'.toUInt8
  else if ch = 'r'.toUInt8 then some '\r'.toUInt8
  else if ch = 't'.toUInt8 then some '\t'.toUInt8
  else none

-- The loop of `qstring_from_escaped_str` over the bytes after the opening quote, up to the
-- closing one or the NUL: `none` is the `goto out` of a bad escape. `qstring_append` copies up to
-- the NUL, so `\u0000` adds nothing.
def unescape (double_quote : Bool) : List UInt8 → Option (List UInt8)
  | [] => some []
  | c :: rest =>
    if c = 0 ∨ (double_quote ∧ c = '\x22'.toUInt8) ∨ (!double_quote ∧ c = '\x27'.toUInt8) then
      some []
    else if c = '\x5c'.toUInt8 then
      match rest with
      | e :: rest =>
        match simpleEscape e with
        | some b => (b :: ·) <$> unescape double_quote rest
        | none =>
          if e = 'u'.toUInt8 then
            match rest with
            | h0 :: h1 :: h2 :: h3 :: rest =>
              if isxdigit h0 ∧ isxdigit h1 ∧ isxdigit h2 ∧ isxdigit h3 then
                let unicode_char := (hex2decimal h0).toNat <<< 12 ||| (hex2decimal h1).toNat <<< 8 |||
                  (hex2decimal h2).toNat <<< 4 ||| (hex2decimal h3).toNat
                (cstr (wchar_to_utf8 unicode_char) ++ ·) <$> unescape double_quote rest
              else none
            | _ => none
          else none
      | [] => none
    else (c :: ·) <$> unescape double_quote rest

-- A JSON_STRING token starts with its quote.
def qstring_from_escaped_str (value : List UInt8) : Option (List UInt8) :=
  match value with
  | [] => some []
  | q :: rest => unescape (q = '\x22'.toUInt8) rest

-- `isspace` of the C locale.
def isspace (ch : UInt8) : Bool := ch = ' '.toUInt8 || ('\t'.toUInt8 ≤ ch && ch ≤ '\r'.toUInt8)

def LLONG_MIN : Int := -2 ^ 63

def LLONG_MAX : Int := 2 ^ 63 - 1

-- The decimal digits at the head of `s`, as a number.
def decimalPrefix (acc : Nat) : List UInt8 → Nat
  | ch :: s => if isdigit ch then decimalPrefix (acc * 10 + (ch - '0'.toUInt8).toNat) s else acc
  | [] => acc

-- `strtoll(s, NULL, 10)`: a value out of range gives `LLONG_MIN` or `LLONG_MAX`.
def strtoll (s : List UInt8) : Int :=
  let s := s.dropWhile isspace
  let (negative, s) :=
    match s with
    | ch :: rest => if ch = '-'.toUInt8 then (true, rest)
      else if ch = '+'.toUInt8 then (false, rest) else (false, s)
    | [] => (false, [])
  let value : Int := if negative then -(decimalPrefix 0 s : Int) else decimalPrefix 0 s
  max LLONG_MIN (min LLONG_MAX value)

/-! ### The rules -/

-- A rule's result from position `pos`: the object or `NULL`, and where it leaves the context.
abbrev ParseResult (pos : Nat) := Except ParseAbort (Option QObject × {p : Nat // pos ≤ p})

def ParseResult.lift {pos p : Nat} (h : pos ≤ p) (r : ParseResult p) : ParseResult pos :=
  r.map fun (obj, q) => (obj, ⟨q.1, le_trans h q.2⟩)

-- `if (obj == NULL) obj = rule(ctxt);`: the next rule runs from where the last one left.
def ParseResult.orElse {pos : Nat} (r : ParseResult pos) (rule : (p : Nat) → ParseResult p) :
    ParseResult pos :=
  match r with
  | .error e => .error e
  | .ok (some obj, q) => .ok (some obj, q)
  | .ok (none, q) => (rule q.1).lift q.2

section Rules

variable (toks : List JSONToken)

-- `parse_escape` with `ap == NULL`: it takes no token.
def parse_escape (pos : Nat) : ParseResult pos := .ok (none, ⟨pos, le_rfl⟩)

def parse_keyword (pos : Nat) : ParseResult pos :=
  if h : pos < toks.length then
    if toks[pos].type ≠ .token JSON_KEYWORD then .ok (none, ⟨pos, le_rfl⟩)
    else if token_is_keyword toks[pos] (['t', 'r', 'u', 'e'].map Char.toUInt8) then
      .ok (some (.qbool true), ⟨pos + 1, Nat.le_succ pos⟩)
    else if token_is_keyword toks[pos] (['f', 'a', 'l', 's', 'e'].map Char.toUInt8) then
      .ok (some (.qbool false), ⟨pos + 1, Nat.le_succ pos⟩)
    -- an invalid keyword
    else .ok (none, ⟨pos, le_rfl⟩)
  else .error .pop

def parse_literal (pos : Nat) : ParseResult pos :=
  if h : pos < toks.length then
    match toks[pos].type with
    -- a bad escape makes the object `NULL`, which is returned without restoring the position
    | .token JSON_STRING =>
      .ok ((qstring_from_escaped_str toks[pos].token).map .qstring, ⟨pos + 1, Nat.le_succ pos⟩)
    | .token JSON_INTEGER => .ok (some (.qint (strtoll toks[pos].token)), ⟨pos + 1, Nat.le_succ pos⟩)
    | .token JSON_FLOAT => .ok (some (.qfloat toks[pos].token), ⟨pos + 1, Nat.le_succ pos⟩)
    | _ => .ok (none, ⟨pos, le_rfl⟩)
  else .error .pop

mutual

-- `parse_pair`: the `qdict_put_obj` calls so far, with the pair's added, or `none` for `-1`.
-- Its position is `4 * (count - pos)` plus a rank, which every call lowers.
def parse_pair (dict : List (QDictOp QObject)) (pos : Nat) :
    Except ParseAbort (Option (List (QDictOp QObject)) × {p : Nat // pos ≤ p}) :=
  -- peek
  if pos < toks.length then
    match parse_value pos with
    | .error e => .error e
    | .ok (some (.qstring key), ⟨p1, h1⟩) =>
      if h : p1 < toks.length then
        if !token_is_operator toks[p1] ':'.toUInt8 then .ok (none, ⟨pos, le_rfl⟩)
        else
          match parse_value (p1 + 1) with
          | .error e => .error e
          | .ok (some value, ⟨p2, h2⟩) => .ok (some (dict ++ [.put key value]), ⟨p2, by omega⟩)
          | .ok (none, _) => .ok (none, ⟨pos, le_rfl⟩)
      else .error .pop
    -- the key is not a string
    | .ok _ => .ok (none, ⟨pos, le_rfl⟩)
  else .error .peek
termination_by 4 * (toks.length - pos) + 3

-- The `while (!token_is_operator(token, '}'))` loop of `parse_object`, after `token` was
-- popped and with `pos` after it.
def objectLoop (dict : List (QDictOp QObject)) (token : JSONToken) (pos : Nat) :
    Except ParseAbort (Option (List (QDictOp QObject)) × {p : Nat // pos ≤ p}) :=
  if token_is_operator token '\x7d'.toUInt8 then .ok (some dict, ⟨pos, le_rfl⟩)
  else if !token_is_operator token ','.toUInt8 then .ok (none, ⟨pos, le_rfl⟩)
  else
    match parse_pair dict pos with
    | .error e => .error e
    | .ok (none, _) => .ok (none, ⟨pos, le_rfl⟩)
    | .ok (some dict, ⟨p1, h1⟩) =>
      if h : p1 < toks.length then
        match objectLoop dict toks[p1] (p1 + 1) with
        | .error e => .error e
        | .ok (r, ⟨p2, h2⟩) => .ok (r, ⟨p2, by omega⟩)
      else .error .pop
termination_by 4 * (toks.length - pos) + 4

def parse_object (pos : Nat) : ParseResult pos :=
  if h : pos < toks.length then
    if !token_is_operator toks[pos] '\x7b'.toUInt8 then .ok (none, ⟨pos, le_rfl⟩)
    else if h1 : pos + 1 < toks.length then
      if !token_is_operator toks[pos + 1] '\x7d'.toUInt8 then
        match parse_pair [] (pos + 1) with
        | .error e => .error e
        | .ok (none, _) => .ok (none, ⟨pos, le_rfl⟩)
        | .ok (some dict, ⟨p1, h1⟩) =>
          if h2 : p1 < toks.length then
            match objectLoop dict toks[p1] (p1 + 1) with
            | .error e => .error e
            | .ok (none, _) => .ok (none, ⟨pos, le_rfl⟩)
            | .ok (some dict, ⟨p2, h3⟩) => .ok (some (.qdict dict), ⟨p2, by omega⟩)
          else .error .pop
      -- the empty object: pop its `}`
      else .ok (some (.qdict []), ⟨pos + 2, by omega⟩)
    else .error .peek
  else .error .pop
termination_by 4 * (toks.length - pos) + 1

-- The `while (!token_is_operator(token, ']'))` loop of `parse_array`.
def arrayLoop (list : List QObject) (token : JSONToken) (pos : Nat) :
    Except ParseAbort (Option (List QObject) × {p : Nat // pos ≤ p}) :=
  if token_is_operator token ']'.toUInt8 then .ok (some list, ⟨pos, le_rfl⟩)
  else if !token_is_operator token ','.toUInt8 then .ok (none, ⟨pos, le_rfl⟩)
  else
    match parse_value pos with
    | .error e => .error e
    | .ok (none, _) => .ok (none, ⟨pos, le_rfl⟩)
    | .ok (some obj, ⟨p1, h1⟩) =>
      if h : p1 < toks.length then
        match arrayLoop (list ++ [obj]) toks[p1] (p1 + 1) with
        | .error e => .error e
        | .ok (r, ⟨p2, h2⟩) => .ok (r, ⟨p2, by omega⟩)
      else .error .pop
termination_by 4 * (toks.length - pos) + 4

def parse_array (pos : Nat) : ParseResult pos :=
  if h : pos < toks.length then
    if !token_is_operator toks[pos] '['.toUInt8 then .ok (none, ⟨pos, le_rfl⟩)
    else if h1 : pos + 1 < toks.length then
      if !token_is_operator toks[pos + 1] ']'.toUInt8 then
        match parse_value (pos + 1) with
        | .error e => .error e
        | .ok (none, _) => .ok (none, ⟨pos, le_rfl⟩)
        | .ok (some obj, ⟨p1, h1⟩) =>
          if h2 : p1 < toks.length then
            match arrayLoop [obj] toks[p1] (p1 + 1) with
            | .error e => .error e
            | .ok (none, _) => .ok (none, ⟨pos, le_rfl⟩)
            | .ok (some list, ⟨p2, h3⟩) => .ok (some (.qlist list), ⟨p2, by omega⟩)
          else .error .pop
      -- the empty array: pop its `]`
      else .ok (some (.qlist []), ⟨pos + 2, by omega⟩)
    else .error .peek
  else .error .pop
termination_by 4 * (toks.length - pos) + 1

def parse_value (pos : Nat) : ParseResult pos :=
  match parse_object pos with
  | .error e => .error e
  | .ok (some obj, q) => .ok (some obj, q)
  | .ok (none, ⟨p1, h1⟩) =>
    match parse_array p1 with
    | .error e => .error e
    | .ok (some obj, ⟨p2, h2⟩) => .ok (some obj, ⟨p2, by omega⟩)
    | .ok (none, ⟨p2, h2⟩) =>
      (((parse_escape p2).orElse (parse_keyword toks)).orElse (parse_literal toks)).lift
        (le_trans h1 h2)
termination_by 4 * (toks.length - pos) + 2

end

end Rules

-- `json_parser_parse(tokens, NULL)`: no list, or an empty one, parses to `NULL`.
def json_parser_parse (tokens : Option (List JSONToken)) : Except ParseAbort (Option QObject) :=
  match tokens with
  | none => .ok none
  | some toks => if toks.length = 0 then .ok none else (parse_value toks 0).map (·.1)

end Qemu.Qobject
