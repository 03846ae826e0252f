import Qemu.Qobject.JsonLexer
import Mathlib

/-!
The streamer of the JSON front end (`qobject/json-streamer.c`): it collects the lexer's tokens
and counts braces and brackets, and hands the list to the parser when a count falls below zero,
when both are back to zero, when the list outgrows `MAX_TOKEN_SIZE` bytes or either count
`MAX_NESTING`, and, as `NULL`, after a lexical error. The emitted lists are returned in order;
`parser->emit` is the caller's to apply.
-/

namespace Qemu.Qobject

open JsonLexerState JSONTokenType

def MAX_NESTING : Nat := 1 <<< 10

structure JSONMessageParser where
  lexer : JSONLexer
  brace_count : Int
  bracket_count : Int
  tokens : List JSONToken
  token_size : Nat

-- `s[i]` of the C string with the bytes `s`.
def cstrAt (s : List UInt8) (i : Nat) : UInt8 := s.getD i 0

-- What the `switch` of `json_message_process_token` adds to `brace_count` and `bracket_count`.
def nesting (token : JSONToken) : Int × Int :=
  if token.type = .token JSON_OPERATOR then
    if cstrAt token.token 0 = '\x7b'.toUInt8 then (1, 0)
    else if cstrAt token.token 0 = '\x7d'.toUInt8 then (-1, 0)
    else if cstrAt token.token 0 = '['.toUInt8 then (0, 1)
    else if cstrAt token.token 0 = ']'.toUInt8 then (0, -1)
    else (0, 0)
  else (0, 0)

theorem nesting_lbrace : nesting ⟨.token JSON_OPERATOR, ['\x7b'.toUInt8]⟩ = (1, 0) := rfl

theorem nesting_rbrace : nesting ⟨.token JSON_OPERATOR, ['\x7d'.toUInt8]⟩ = (-1, 0) := rfl

theorem nesting_lbracket : nesting ⟨.token JSON_OPERATOR, ['['.toUInt8]⟩ = (0, 1) := rfl

theorem nesting_rbracket : nesting ⟨.token JSON_OPERATOR, [']'.toUInt8]⟩ = (0, -1) := rfl

theorem nesting_comma : nesting ⟨.token JSON_OPERATOR, [','.toUInt8]⟩ = 0 := rfl

theorem nesting_colon : nesting ⟨.token JSON_OPERATOR, [':'.toUInt8]⟩ = 0 := rfl

-- (brace_count, bracket_count) over the first `p` tokens.
def depth (toks : List JSONToken) (p : Nat) : Int × Int := ((toks.take p).map nesting).sum

-- Counts the streamer emits a list at: one below zero, or both zero.
def Closed (c : Int × Int) : Prop := c.1 < 0 ∨ c.2 < 0 ∨ (c.1 = 0 ∧ c.2 = 0)

-- A list the streamer emits because it reached `MAX_TOKEN_SIZE` bytes or `MAX_NESTING`.
def Cut (toks : List JSONToken) : Prop :=
  (toks.map fun t => t.token.length).sum > MAX_TOKEN_SIZE ∨
    (depth toks toks.length).2 > MAX_NESTING ∨ (depth toks toks.length).1 > MAX_NESTING

theorem depth_succ {toks : List JSONToken} {p : Nat} (h : p < toks.length) :
    depth toks (p + 1) = depth toks p + nesting toks[p] := by
  unfold depth
  rw [List.take_add_one, List.getElem?_eq_getElem h, List.map_append, List.sum_append]
  simp

theorem depth_length (toks : List JSONToken) : depth toks toks.length = (toks.map nesting).sum := by
  rw [depth, List.take_length]

def json_message_parser_init : JSONMessageParser := ⟨json_lexer_init, 0, 0, [], 0⟩

-- The parser state after a token, and the token list emitted, `none` for the `NULL` list.
def json_message_process_token (parser : JSONMessageParser) (token : JSONToken) :
    JSONMessageParser × List (Option (List JSONToken)) :=
  let brace_count := parser.brace_count + (nesting token).1
  let bracket_count := parser.bracket_count + (nesting token).2
  let token_size := parser.token_size + token.token.length
  let tokens := parser.tokens ++ [token]
  -- out_emit: the counts and the list start again
  let emit := fun (list : Option (List JSONToken)) =>
    ({ parser with brace_count := 0, bracket_count := 0, tokens := [], token_size := 0 }, [list])
  if token.type = .token JSON_ERROR then emit none
  else if brace_count < 0 ∨ bracket_count < 0 ∨ (brace_count = 0 ∧ bracket_count = 0) then
    emit (some tokens)
  -- the counts are not negative here, so comparing them with MAX_NESTING as unsigned is as Int
  else if token_size > MAX_TOKEN_SIZE ∨ bracket_count > MAX_NESTING ∨ brace_count > MAX_NESTING then
    emit (some tokens)
  else ({ parser with brace_count, bracket_count, tokens, token_size }, [])

-- The lexer hands each token to `json_message_process_token` as it ends.
def processTokens (parser : JSONMessageParser) :
    List JSONToken → JSONMessageParser × List (Option (List JSONToken))
  | [] => (parser, [])
  | token :: tokens =>
    let (parser, out) := json_message_process_token parser token
    let (parser, out') := processTokens parser tokens
    (parser, out ++ out')

def json_message_parser_feed (parser : JSONMessageParser) (buffer : List UInt8) :
    JSONMessageParser × List (Option (List JSONToken)) :=
  let (lexer, tokens) := json_lexer_feed parser.lexer buffer
  processTokens { parser with lexer } tokens

def json_message_parser_flush (parser : JSONMessageParser) :
    JSONMessageParser × List (Option (List JSONToken)) :=
  let (lexer, tokens) := json_lexer_flush parser.lexer
  processTokens { parser with lexer } tokens

-- `json_message_parser_feed` of `buffer` followed by `json_message_parser_flush`, from a new
-- parser: every token list handed to the parser.
def feedAndFlush (buffer : List UInt8) : List (Option (List JSONToken)) :=
  let (parser, out) := json_message_parser_feed json_message_parser_init buffer
  out ++ (json_message_parser_flush parser).2

/-! ### What the streamer emits -/

-- The counts and the size the streamer keeps are those of the tokens it holds.
structure JSONMessageParser.Inv (parser : JSONMessageParser) : Prop where
  counts : (parser.brace_count, parser.bracket_count) = depth parser.tokens parser.tokens.length
  size : parser.token_size = (parser.tokens.map fun t => t.token.length).sum

-- A list handed to the parser: `NULL`, or a list whose counts closed, or one cut at a limit.
def Emitted (list : Option (List JSONToken)) : Prop :=
  list = none ∨ ∃ toks, list = some toks ∧ (Closed (depth toks toks.length) ∨ Cut toks)

theorem JSONMessageParser.Inv.init : json_message_parser_init.Inv := ⟨rfl, rfl⟩

section Step

variable {parser : JSONMessageParser} {token : JSONToken}

-- A token that closes no count and reaches no limit is collected.
theorem json_message_process_token_collect (herr : token.type ≠ .token JSON_ERROR)
    (hopen : ¬ (parser.brace_count + (nesting token).1 < 0 ∨
      parser.bracket_count + (nesting token).2 < 0 ∨
      (parser.brace_count + (nesting token).1 = 0 ∧ parser.bracket_count + (nesting token).2 = 0)))
    (hlimit : ¬ (parser.token_size + token.token.length > MAX_TOKEN_SIZE ∨
      parser.bracket_count + (nesting token).2 > MAX_NESTING ∨
      parser.brace_count + (nesting token).1 > MAX_NESTING)) :
    json_message_process_token parser token =
      ({ parser with
          brace_count := parser.brace_count + (nesting token).1
          bracket_count := parser.bracket_count + (nesting token).2
          tokens := parser.tokens ++ [token]
          token_size := parser.token_size + token.token.length }, []) := by
  unfold json_message_process_token
  rw [if_neg herr, if_neg hopen, if_neg hlimit]

-- A token that reaches a limit with the counts open has the list emitted.
theorem json_message_process_token_cut (herr : token.type ≠ .token JSON_ERROR)
    (hopen : ¬ (parser.brace_count + (nesting token).1 < 0 ∨
      parser.bracket_count + (nesting token).2 < 0 ∨
      (parser.brace_count + (nesting token).1 = 0 ∧ parser.bracket_count + (nesting token).2 = 0)))
    (hlimit : parser.token_size + token.token.length > MAX_TOKEN_SIZE ∨
      parser.bracket_count + (nesting token).2 > MAX_NESTING ∨
      parser.brace_count + (nesting token).1 > MAX_NESTING) :
    json_message_process_token parser token =
      ({ parser with brace_count := 0, bracket_count := 0, tokens := [], token_size := 0 },
        [some (parser.tokens ++ [token])]) := by
  unfold json_message_process_token
  rw [if_neg herr, if_neg hopen, if_pos hlimit]

end Step

-- An emission starts the state again.
theorem JSONMessageParser.Inv.reset (parser : JSONMessageParser) :
    JSONMessageParser.Inv
      { parser with brace_count := 0, bracket_count := 0, tokens := [], token_size := 0 } :=
  ⟨rfl, rfl⟩

theorem JSONMessageParser.Inv.process_token {parser : JSONMessageParser} (h : parser.Inv)
    (token : JSONToken) :
    (json_message_process_token parser token).1.Inv ∧
      ∀ list ∈ (json_message_process_token parser token).2, Emitted list := by
  -- the counts and the size after the token are those of the list with it
  have hdepth : depth (parser.tokens ++ [token]) (parser.tokens ++ [token]).length =
      (parser.brace_count + (nesting token).1, parser.bracket_count + (nesting token).2) := by
    rw [depth_length, List.map_append, List.sum_append, ← depth_length, ← h.counts]
    simp only [List.map_cons, List.map_nil, List.sum_cons, List.sum_nil, add_zero]
    rfl
  have hsize : ((parser.tokens ++ [token]).map fun t => t.token.length).sum =
      parser.token_size + token.token.length := by
    rw [List.map_append, List.sum_append, ← h.size]
    simp
  unfold json_message_process_token
  dsimp only
  split_ifs with herr hclosed hcut
  · exact ⟨.reset parser, by simp [Emitted]⟩
  · refine ⟨.reset parser, ?_⟩
    simp only [List.mem_singleton, forall_eq]
    exact .inr ⟨_, rfl, .inl (by rw [hdepth]; exact hclosed)⟩
  · refine ⟨.reset parser, ?_⟩
    simp only [List.mem_singleton, forall_eq]
    refine .inr ⟨_, rfl, .inr ?_⟩
    unfold Cut
    rw [hdepth, hsize]
    exact hcut
  · exact ⟨⟨hdepth.symm, hsize.symm⟩, by simp⟩

theorem JSONMessageParser.Inv.run {parser : JSONMessageParser} (h : parser.Inv)
    (tokens : List JSONToken) :
    (processTokens parser tokens).1.Inv ∧ ∀ list ∈ (processTokens parser tokens).2, Emitted list := by
  induction tokens generalizing parser with
  | nil => exact ⟨h, by simp [processTokens]⟩
  | cons token tokens ih =>
    obtain ⟨h1, hout1⟩ := h.process_token token
    obtain ⟨h2, hout2⟩ := ih h1
    refine ⟨h2, ?_⟩
    intro list hlist
    rcases List.mem_append.mp hlist with hl | hl
    · exact hout1 list hl
    · exact hout2 list hl

-- Every list that `json_message_parser_feed` and `json_message_parser_flush` hand to the
-- parser is `NULL`, closed, or cut at a limit.
theorem feedAndFlush_emitted (buffer : List UInt8) :
    ∀ list ∈ feedAndFlush buffer, Emitted list := by
  have h0 : ({ json_message_parser_init with
      lexer := (json_lexer_feed json_message_parser_init.lexer buffer).1 }).Inv := ⟨rfl, rfl⟩
  obtain ⟨h1, hout1⟩ := h0.run (json_lexer_feed json_message_parser_init.lexer buffer).2
  set parser := (processTokens { json_message_parser_init with
    lexer := (json_lexer_feed json_message_parser_init.lexer buffer).1 }
    (json_lexer_feed json_message_parser_init.lexer buffer).2).1
  have h2 : ({ parser with lexer := (json_lexer_flush parser.lexer).1 }).Inv := ⟨h1.counts, h1.size⟩
  obtain ⟨-, hout2⟩ := h2.run (json_lexer_flush parser.lexer).2
  intro list hlist
  rcases List.mem_append.mp hlist with hl | hl
  · exact hout1 list hl
  · exact hout2 list hl

theorem processTokens_append (parser : JSONMessageParser) (l₁ l₂ : List JSONToken) :
    processTokens parser (l₁ ++ l₂) =
      ((processTokens (processTokens parser l₁).1 l₂).1,
        (processTokens parser l₁).2 ++ (processTokens (processTokens parser l₁).1 l₂).2) := by
  induction l₁ generalizing parser with
  | nil => simp [processTokens]
  | cons token l₁ ih =>
    simp only [List.cons_append, processTokens, ih, List.append_assoc]

end Qemu.Qobject
