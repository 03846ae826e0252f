import Qemu.Qobject.JsonParser

/-!
Where the parser may read past the end of its token list. The streamer emits a list when a
count falls below zero or both are back to zero, and then the parser never does: every
position it reads is inside the objects and arrays it has opened, where the counts of the
tokens before it are at least zero and not both zero, which the whole list's counts are not.
A list the streamer cuts at `MAX_NESTING` or `MAX_TOKEN_SIZE` has no such end, and on the
`MAX_NESTING + 1` brackets it cuts first the parser peeks past the end.
-/

namespace Qemu.Qobject

open JsonLexerState JSONTokenType

def Nonneg (c : Int × Int) : Prop := 0 ≤ c.1 ∧ 0 ≤ c.2

/-! ### Counts -/

theorem nesting_of_token_is_operator {t : JSONToken} {c : UInt8}
    (h : token_is_operator t c = true) : nesting t = nesting ⟨.token JSON_OPERATOR, [c]⟩ := by
  simp only [token_is_operator, Bool.and_eq_true, beq_iff_eq] at h
  obtain ⟨⟨htype, h0⟩, -⟩ := h
  simp only [nesting, htype, h0]
  rfl

theorem nesting_of_type_ne {t : JSONToken} (h : t.type ≠ .token JSON_OPERATOR) : nesting t = 0 := by
  simp [nesting, h]

-- Counts inside an open object or array: none below zero, not both zero.
def Open (c : Int × Int) : Prop := Nonneg c ∧ ¬ (c.1 = 0 ∧ c.2 = 0)

theorem open_add_brace {c : Int × Int} (h : Nonneg c) : Open (c + (1, 0)) := by
  obtain ⟨h1, h2⟩ := h
  refine ⟨⟨?_, ?_⟩, ?_⟩ <;> simp only [Prod.fst_add, Prod.snd_add] <;> omega

theorem open_add_bracket {c : Int × Int} (h : Nonneg c) : Open (c + (0, 1)) := by
  obtain ⟨h1, h2⟩ := h
  refine ⟨⟨?_, ?_⟩, ?_⟩ <;> simp only [Prod.fst_add, Prod.snd_add] <;> omega

theorem depth_succ_of_type_ne {toks : List JSONToken} {p : Nat} (h : p < toks.length)
    (ht : toks[p].type ≠ .token JSON_OPERATOR) : depth toks (p + 1) = depth toks p := by
  rw [depth_succ h, nesting_of_type_ne ht, add_zero]

/-! ### Rules leave the context where they began on `NULL` -/

section Restores

variable {toks : List JSONToken} {pos : Nat} {q : {p : Nat // pos ≤ p}}

theorem parse_object_restores (h : parse_object toks pos = .ok (none, q)) : q.1 = pos := by
  rw [parse_object] at h
  repeat' split at h
  all_goals
    simp only [Except.ok.injEq, Prod.mk.injEq, reduceCtorEq, false_and, true_and] at h
    try (subst h; rfl)

theorem parse_array_restores (h : parse_array toks pos = .ok (none, q)) : q.1 = pos := by
  rw [parse_array] at h
  repeat' split at h
  all_goals
    simp only [Except.ok.injEq, Prod.mk.injEq, reduceCtorEq, false_and, true_and] at h
    try (subst h; rfl)

theorem parse_keyword_restores (h : parse_keyword toks pos = .ok (none, q)) : q.1 = pos := by
  rw [parse_keyword] at h
  repeat' split at h
  all_goals
    simp only [Except.ok.injEq, Prod.mk.injEq, reduceCtorEq, false_and, true_and] at h
    try (subst h; rfl)

end Restores

/-! ### No rule reads past the end of a closed list -/

-- A result that does not abort and stays within the list, and whose object, if any, ends
-- where the counts are `target`.
def SafeTo {α : Type} {pos : Nat} (toks : List JSONToken)
    (r : Except ParseAbort (Option α × {p : Nat // pos ≤ p})) (target : Int × Int) : Prop :=
  ∃ obj p, r = .ok (obj, p) ∧ p.1 ≤ toks.length ∧ (obj.isSome → depth toks p.1 = target)

section Safety

variable {toks : List JSONToken}

theorem SafeTo.lift {pos p : Nat} (h : pos ≤ p) {r : ParseResult p} {target : Int × Int}
    (hs : SafeTo toks r target) : SafeTo toks (r.lift h) target := by
  obtain ⟨obj, q, hr, hle, hd⟩ := hs
  exact ⟨obj, ⟨q.1, le_trans h q.2⟩, by rw [hr]; rfl, hle, hd⟩

theorem parse_literal_safe {pos : Nat} (hpos : pos < toks.length) :
    SafeTo toks (parse_literal toks pos) (depth toks pos) := by
  rw [parse_literal, dif_pos hpos]
  -- a literal is no operator, so the counts stay
  have hd : ∀ t, toks[pos].type = .token t → t ≠ JSON_OPERATOR →
      depth toks (pos + 1) = depth toks pos := fun t ht hne =>
    depth_succ_of_type_ne hpos (by rw [ht]; exact fun h => hne (LexEntry.token.inj h))
  split
  · next ht => exact ⟨_, _, rfl, hpos, fun _ => hd _ ht (by decide)⟩
  · next ht => exact ⟨_, _, rfl, hpos, fun _ => hd _ ht (by decide)⟩
  · next ht => exact ⟨_, _, rfl, hpos, fun _ => hd _ ht (by decide)⟩
  · exact ⟨none, _, rfl, le_of_lt hpos, by simp⟩

-- What `parse_value` tries after an object and an array.
theorem parse_atom_safe {pos : Nat} (hpos : pos < toks.length) :
    SafeTo toks (((parse_escape pos).orElse (parse_keyword toks)).orElse (parse_literal toks))
      (depth toks pos) := by
  have hkw : toks[pos].type = .token JSON_KEYWORD → depth toks (pos + 1) = depth toks pos :=
    fun ht => depth_succ_of_type_ne hpos (by rw [ht]; decide)
  cases hk : parse_keyword toks pos with
  | error e =>
    rw [parse_keyword, dif_pos hpos] at hk
    split_ifs at hk
  | ok r =>
    obtain ⟨obj, q⟩ := r
    have hesc : (parse_escape pos).orElse (parse_keyword toks) = (parse_keyword toks pos).lift le_rfl :=
      rfl
    rw [hesc, hk]
    cases obj with
    | none =>
      have hq : q.1 = pos := parse_keyword_restores hk
      obtain ⟨q, hq'⟩ := q
      simp only at hq
      subst hq
      exact SafeTo.lift (le_refl _) (parse_literal_safe hpos)
    | some obj =>
      -- a keyword token
      rw [parse_keyword, dif_pos hpos] at hk
      split_ifs at hk with h1 h2 h3 <;>
        simp only [Except.ok.injEq, Prod.mk.injEq, reduceCtorEq, false_and] at hk
      · obtain ⟨-, rfl⟩ := hk
        exact ⟨_, _, rfl, hpos, fun _ => hkw (not_not.mp h1)⟩
      · obtain ⟨-, rfl⟩ := hk
        exact ⟨_, _, rfl, hpos, fun _ => hkw (not_not.mp h1)⟩

-- A position inside an open object or array is not the end of a closed list.
theorem lt_length_of_open (hclosed : Closed (depth toks toks.length)) {p : Nat}
    (hp : p ≤ toks.length) (hopen : Open (depth toks p)) : p < toks.length := by
  rcases Nat.lt_or_eq_of_le hp with hlt | rfl
  · exact hlt
  · obtain ⟨⟨h1, h2⟩, h3⟩ := hopen
    rcases hclosed with h | h | h <;> omega

mutual

theorem parse_pair_safe (hclosed : Closed (depth toks toks.length)) (dict : List (QDictOp QObject))
    {pos : Nat} (hpos : pos ≤ toks.length) (hopen : Open (depth toks pos)) :
    SafeTo toks (parse_pair toks dict pos) (depth toks pos) := by
  have hlt : pos < toks.length := lt_length_of_open hclosed hpos hopen
  rw [parse_pair, if_pos hlt]
  obtain ⟨key, ⟨p1, h1⟩, hres, hle, hdp⟩ := parse_value_safe hclosed hlt hopen.1
  rw [hres]
  rcases key with _ | ⟨⟩ | ⟨⟩ | ⟨⟩ | ⟨key⟩ | ⟨⟩ | ⟨⟩
  case qstring =>
    -- the key: the counts are those of the object, so a token follows
    have hdp1 : depth toks p1 = depth toks pos := hdp rfl
    have hp1 : p1 < toks.length := lt_length_of_open hclosed hle (by rw [hdp1]; exact hopen)
    dsimp only
    rw [dif_pos hp1]
    by_cases hc : token_is_operator toks[p1] ':'.toUInt8 = true
    · rw [if_neg (by simp [hc])]
      have hd2 : depth toks (p1 + 1) = depth toks pos := by
        rw [depth_succ hp1, nesting_of_token_is_operator hc, nesting_colon, add_zero, hdp1]
      have hp2 : p1 + 1 < toks.length :=
        lt_length_of_open hclosed (by omega) (by rw [hd2]; exact hopen)
      obtain ⟨v, ⟨p2, h2⟩, hres2, hle2, hdp2⟩ :=
        parse_value_safe hclosed hp2 (by rw [hd2]; exact hopen.1)
      rw [hres2]
      cases v with
      | none => exact ⟨none, _, rfl, by omega, by simp⟩
      | some value => exact ⟨some _, ⟨p2, _⟩, rfl, hle2, fun _ => (hdp2 rfl).trans hd2⟩
    · rw [if_pos (by simpa using hc)]
      exact ⟨none, _, rfl, hpos, by simp⟩
  all_goals exact ⟨none, _, rfl, hpos, by simp⟩
termination_by 4 * (toks.length - pos) + 3

theorem objectLoop_safe (hclosed : Closed (depth toks toks.length)) (dict : List (QDictOp QObject))
    (token : JSONToken) {pos : Nat} {A : Int × Int} (hpos : pos ≤ toks.length) (hA : Nonneg A)
    (hd : depth toks pos = A + (1, 0) + nesting token) :
    SafeTo toks (objectLoop toks dict token pos) A := by
  rw [objectLoop]
  by_cases hr : token_is_operator token '\x7d'.toUInt8 = true
  · -- the closing brace takes the counts back to those before the object
    rw [if_pos hr]
    refine ⟨_, _, rfl, hpos, fun _ => ?_⟩
    rw [hd, nesting_of_token_is_operator hr, nesting_rbrace, add_assoc]
    simp
  · rw [if_neg hr]
    by_cases hc : token_is_operator token ','.toUInt8 = true
    · rw [if_neg (by simp [hc])]
      have hd' : depth toks pos = A + (1, 0) := by
        rw [hd, nesting_of_token_is_operator hc, nesting_comma, add_zero]
      obtain ⟨d, ⟨p1, h1⟩, hres, hle, hdp⟩ :=
        parse_pair_safe hclosed dict hpos (by rw [hd']; exact open_add_brace hA)
      rw [hres]
      cases d with
      | none => exact ⟨none, _, rfl, hpos, by simp⟩
      | some dict' =>
        have hdp1 : depth toks p1 = A + (1, 0) := (hdp rfl).trans hd'
        have hp1 : p1 < toks.length :=
          lt_length_of_open hclosed hle (by rw [hdp1]; exact open_add_brace hA)
        dsimp only
        rw [dif_pos hp1]
        obtain ⟨r, ⟨p2, h2⟩, hres2, hle2, hdp2⟩ := objectLoop_safe hclosed dict' toks[p1]
          (show p1 + 1 ≤ toks.length by omega) hA (by rw [depth_succ hp1, hdp1])
        rw [hres2]
        exact ⟨r, ⟨p2, _⟩, rfl, hle2, hdp2⟩
    · rw [if_pos (by simpa using hc)]
      exact ⟨none, _, rfl, hpos, by simp⟩
termination_by 4 * (toks.length - pos) + 4

theorem parse_object_safe (hclosed : Closed (depth toks toks.length)) {pos : Nat}
    (hpos : pos < toks.length) (hnn : Nonneg (depth toks pos)) :
    SafeTo toks (parse_object toks pos) (depth toks pos) := by
  rw [parse_object, dif_pos hpos]
  by_cases hl : token_is_operator toks[pos] '\x7b'.toUInt8 = true
  · -- after the opening brace the counts are open, so the list goes on
    have hd1 : depth toks (pos + 1) = depth toks pos + (1, 0) := by
      rw [depth_succ hpos, nesting_of_token_is_operator hl, nesting_lbrace]
    have hpos1 : pos + 1 < toks.length :=
      lt_length_of_open hclosed (by omega) (by rw [hd1]; exact open_add_brace hnn)
    rw [if_neg (by simp [hl]), dif_pos hpos1]
    by_cases hr : token_is_operator toks[pos + 1] '\x7d'.toUInt8 = true
    · rw [if_neg (by simp [hr])]
      refine ⟨_, _, rfl, by dsimp only; omega, fun _ => ?_⟩
      show depth toks (pos + 1 + 1) = depth toks pos
      rw [depth_succ hpos1, nesting_of_token_is_operator hr, nesting_rbrace, hd1, add_assoc]
      simp
    · rw [if_pos (by simpa using hr)]
      obtain ⟨d, ⟨p1, h1⟩, hres, hle, hdp⟩ :=
        parse_pair_safe hclosed [] (show pos + 1 ≤ toks.length by omega) (by rw [hd1]; exact open_add_brace hnn)
      rw [hres]
      cases d with
      | none => exact ⟨none, _, rfl, by dsimp only; omega, by simp⟩
      | some dict =>
        have hdp1 : depth toks p1 = depth toks pos + (1, 0) := (hdp rfl).trans hd1
        have hp1 : p1 < toks.length :=
          lt_length_of_open hclosed hle (by rw [hdp1]; exact open_add_brace hnn)
        dsimp only
        rw [dif_pos hp1]
        obtain ⟨r, ⟨p2, h2⟩, hres2, hle2, hdp2⟩ := objectLoop_safe hclosed dict toks[p1]
          (show p1 + 1 ≤ toks.length by omega) hnn (by rw [depth_succ hp1, hdp1])
        rw [hres2]
        cases r with
        | none => exact ⟨none, _, rfl, by dsimp only; omega, by simp⟩
        | some d => exact ⟨some _, ⟨p2, _⟩, rfl, hle2, fun _ => hdp2 rfl⟩
  · rw [if_pos (by simpa using hl)]
    exact ⟨none, _, rfl, by dsimp only; omega, by simp⟩
termination_by 4 * (toks.length - pos) + 1

theorem arrayLoop_safe (hclosed : Closed (depth toks toks.length)) (list : List QObject)
    (token : JSONToken) {pos : Nat} {A : Int × Int} (hpos : pos ≤ toks.length) (hA : Nonneg A)
    (hd : depth toks pos = A + (0, 1) + nesting token) :
    SafeTo toks (arrayLoop toks list token pos) A := by
  rw [arrayLoop]
  by_cases hr : token_is_operator token ']'.toUInt8 = true
  · rw [if_pos hr]
    refine ⟨_, _, rfl, hpos, fun _ => ?_⟩
    rw [hd, nesting_of_token_is_operator hr, nesting_rbracket, add_assoc]
    simp
  · rw [if_neg hr]
    by_cases hc : token_is_operator token ','.toUInt8 = true
    · rw [if_neg (by simp [hc])]
      have hd' : depth toks pos = A + (0, 1) := by
        rw [hd, nesting_of_token_is_operator hc, nesting_comma, add_zero]
      have hlt : pos < toks.length :=
        lt_length_of_open hclosed hpos (by rw [hd']; exact open_add_bracket hA)
      obtain ⟨v, ⟨p1, h1⟩, hres, hle, hdp⟩ :=
        parse_value_safe hclosed hlt (by rw [hd']; exact (open_add_bracket hA).1)
      rw [hres]
      cases v with
      | none => exact ⟨none, _, rfl, hpos, by simp⟩
      | some obj =>
        have hdp1 : depth toks p1 = A + (0, 1) := (hdp rfl).trans hd'
        have hp1 : p1 < toks.length :=
          lt_length_of_open hclosed hle (by rw [hdp1]; exact open_add_bracket hA)
        dsimp only
        rw [dif_pos hp1]
        obtain ⟨r, ⟨p2, h2⟩, hres2, hle2, hdp2⟩ := arrayLoop_safe hclosed (list ++ [obj]) toks[p1]
          (show p1 + 1 ≤ toks.length by omega) hA (by rw [depth_succ hp1, hdp1])
        rw [hres2]
        exact ⟨r, ⟨p2, _⟩, rfl, hle2, hdp2⟩
    · rw [if_pos (by simpa using hc)]
      exact ⟨none, _, rfl, hpos, by simp⟩
termination_by 4 * (toks.length - pos) + 4

theorem parse_array_safe (hclosed : Closed (depth toks toks.length)) {pos : Nat}
    (hpos : pos < toks.length) (hnn : Nonneg (depth toks pos)) :
    SafeTo toks (parse_array toks pos) (depth toks pos) := by
  rw [parse_array, dif_pos hpos]
  by_cases hl : token_is_operator toks[pos] '['.toUInt8 = true
  · have hd1 : depth toks (pos + 1) = depth toks pos + (0, 1) := by
      rw [depth_succ hpos, nesting_of_token_is_operator hl, nesting_lbracket]
    have hpos1 : pos + 1 < toks.length :=
      lt_length_of_open hclosed (by omega) (by rw [hd1]; exact open_add_bracket hnn)
    rw [if_neg (by simp [hl]), dif_pos hpos1]
    by_cases hr : token_is_operator toks[pos + 1] ']'.toUInt8 = true
    · rw [if_neg (by simp [hr])]
      refine ⟨_, _, rfl, by dsimp only; omega, fun _ => ?_⟩
      show depth toks (pos + 1 + 1) = depth toks pos
      rw [depth_succ hpos1, nesting_of_token_is_operator hr, nesting_rbracket, hd1, add_assoc]
      simp
    · rw [if_pos (by simpa using hr)]
      obtain ⟨v, ⟨p1, h1⟩, hres, hle, hdp⟩ :=
        parse_value_safe hclosed hpos1 (by rw [hd1]; exact (open_add_bracket hnn).1)
      rw [hres]
      cases v with
      | none => exact ⟨none, _, rfl, by dsimp only; omega, by simp⟩
      | some obj =>
        have hdp1 : depth toks p1 = depth toks pos + (0, 1) := (hdp rfl).trans hd1
        have hp1 : p1 < toks.length :=
          lt_length_of_open hclosed hle (by rw [hdp1]; exact open_add_bracket hnn)
        dsimp only
        rw [dif_pos hp1]
        obtain ⟨r, ⟨p2, h2⟩, hres2, hle2, hdp2⟩ := arrayLoop_safe hclosed [obj] toks[p1]
          (show p1 + 1 ≤ toks.length by omega) hnn (by rw [depth_succ hp1, hdp1])
        rw [hres2]
        cases r with
        | none => exact ⟨none, _, rfl, by dsimp only; omega, by simp⟩
        | some l => exact ⟨some _, ⟨p2, _⟩, rfl, hle2, fun _ => hdp2 rfl⟩
  · rw [if_pos (by simpa using hl)]
    exact ⟨none, _, rfl, by dsimp only; omega, by simp⟩
termination_by 4 * (toks.length - pos) + 1

theorem parse_value_safe (hclosed : Closed (depth toks toks.length)) {pos : Nat}
    (hpos : pos < toks.length) (hnn : Nonneg (depth toks pos)) :
    SafeTo toks (parse_value toks pos) (depth toks pos) := by
  rw [parse_value]
  obtain ⟨o, ⟨p1, h1⟩, hres, hle, hdp⟩ := parse_object_safe hclosed hpos hnn
  rw [hres]
  cases o with
  | some obj => exact ⟨some obj, _, rfl, hle, hdp⟩
  | none =>
    -- an object that is not there leaves the context as it was, and so does an array
    have hp1 : p1 = pos := parse_object_restores hres
    subst hp1
    dsimp only
    obtain ⟨a, ⟨p2, h2⟩, hres2, hle2, hdp2⟩ := parse_array_safe hclosed hpos hnn
    rw [hres2]
    cases a with
    | some obj => exact ⟨some obj, _, rfl, hle2, hdp2⟩
    | none =>
      have hp2 : p2 = p1 := parse_array_restores hres2
      subst hp2
      exact SafeTo.lift _ (parse_atom_safe hpos)
termination_by 4 * (toks.length - pos) + 2

end

end Safety

-- On a list whose counts close, `json_parser_parse` returns an object or `NULL`.
theorem json_parser_parse_ok_of_closed {toks : List JSONToken}
    (hclosed : Closed (depth toks toks.length)) : ∃ obj, json_parser_parse (some toks) = .ok obj := by
  unfold json_parser_parse
  dsimp only
  by_cases h0 : toks.length = 0
  · exact ⟨none, if_pos h0⟩
  · rw [if_neg h0]
    have hnn : Nonneg (depth toks 0) := ⟨le_rfl, le_rfl⟩
    obtain ⟨obj, p, hr, -, -⟩ := parse_value_safe hclosed (show 0 < toks.length by omega) hnn
    rw [hr]
    exact ⟨obj, rfl⟩

-- From any bytes, the parser aborts only on a list the streamer cut at `MAX_TOKEN_SIZE` bytes
-- or at `MAX_NESTING`.
theorem feedAndFlush_parse_ok_or_cut (buffer : List UInt8) :
    ∀ list ∈ feedAndFlush buffer,
      (∃ obj, json_parser_parse list = .ok obj) ∨ ∃ toks, list = some toks ∧ Cut toks := by
  intro list hlist
  rcases feedAndFlush_emitted buffer list hlist with rfl | ⟨toks, rfl, hclosed | hcut⟩
  · exact .inl ⟨none, rfl⟩
  · exact .inl (json_parser_parse_ok_of_closed hclosed)
  · exact .inr ⟨toks, rfl, hcut⟩

theorem feedAndFlush_parse_ok_or_cut_brackets :
    (∃ obj, json_parser_parse
        (some [⟨.token .JSON_OPERATOR, [91]⟩, ⟨.token .JSON_OPERATOR, [93]⟩]) = .ok obj) ∨
      ∃ toks, some [⟨.token .JSON_OPERATOR, [91]⟩, ⟨.token .JSON_OPERATOR, [93]⟩] = some toks ∧
        Cut toks :=
  feedAndFlush_parse_ok_or_cut [91, 93] _ (by decide)

/-! ### A run of opening brackets -/

section Brackets

-- On opening brackets alone every rule is an array that never closes; the innermost one peeks
-- past the end.
theorem parse_value_replicate_lbracket {n : Nat} :
    ∀ k pos, pos + k + 1 = n →
      parse_value (List.replicate n ⟨.token JSON_OPERATOR, ['['.toUInt8]⟩) pos = .error .peek := by
  intro k
  induction k with
  | zero =>
    intro pos hn
    have hobj : parse_object (List.replicate n ⟨.token JSON_OPERATOR, ['['.toUInt8]⟩) pos =
        .ok (none, ⟨pos, le_rfl⟩) := by
      rw [parse_object, dif_pos (by simp; omega), List.getElem_replicate, if_pos (by decide)]
    have harr : parse_array (List.replicate n ⟨.token JSON_OPERATOR, ['['.toUInt8]⟩) pos =
        .error .peek := by
      rw [parse_array, dif_pos (by simp; omega), List.getElem_replicate, if_neg (by decide),
        dif_neg (by simp; omega)]
    rw [parse_value, hobj]
    dsimp only
    rw [harr]
  | succ k ih =>
    intro pos hn
    have hobj : parse_object (List.replicate n ⟨.token JSON_OPERATOR, ['['.toUInt8]⟩) pos =
        .ok (none, ⟨pos, le_rfl⟩) := by
      rw [parse_object, dif_pos (by simp; omega), List.getElem_replicate, if_pos (by decide)]
    have harr : parse_array (List.replicate n ⟨.token JSON_OPERATOR, ['['.toUInt8]⟩) pos =
        .error .peek := by
      rw [parse_array, dif_pos (by simp; omega), List.getElem_replicate, if_neg (by decide),
        dif_pos (by simp; omega), List.getElem_replicate, if_pos (by decide),
        ih (pos + 1) (by omega)]
    rw [parse_value, hobj]
    dsimp only
    rw [harr]

-- Up to `MAX_NESTING` opening brackets the streamer only collects them.
theorem processTokens_replicate_lbracket (lexer : JSONLexer) :
    ∀ k m, m + k ≤ MAX_NESTING →
      processTokens ⟨lexer, 0, m, List.replicate m ⟨.token JSON_OPERATOR, ['['.toUInt8]⟩, m⟩
          (List.replicate k ⟨.token JSON_OPERATOR, ['['.toUInt8]⟩) =
        (⟨lexer, 0, ((m + k : Nat) : Int), List.replicate (m + k) ⟨.token JSON_OPERATOR, ['['.toUInt8]⟩,
          m + k⟩, []) := by
  intro k
  induction k with
  | zero => intro m _; rfl
  | succ k ih =>
    intro m hm
    have hmax : MAX_NESTING = 1024 := rfl
    have hsize : MAX_TOKEN_SIZE = 67108864 := rfl
    have hstep : json_message_process_token
        ⟨lexer, 0, m, List.replicate m ⟨.token JSON_OPERATOR, ['['.toUInt8]⟩, m⟩
        ⟨.token JSON_OPERATOR, ['['.toUInt8]⟩ =
        (⟨lexer, 0, ((m + 1 : Nat) : Int),
          List.replicate (m + 1) ⟨.token JSON_OPERATOR, ['['.toUInt8]⟩, m + 1⟩, []) := by
      rw [json_message_process_token_collect (by decide)
        (by simp only [nesting_lbracket]; omega)
        (by simp only [nesting_lbracket, List.length_singleton, hmax, hsize]; omega),
        List.replicate_succ']
      rfl
    rw [List.replicate_succ, processTokens, hstep]
    dsimp only
    rw [ih (m + 1) (by omega), show m + 1 + k = m + (k + 1) by omega]
    rfl

-- The 1025th opening bracket takes `bracket_count` past `MAX_NESTING`: the streamer hands the
-- brackets to the parser, and nothing is left for the flush.
theorem feedAndFlush_replicate_lbracket :
    feedAndFlush (List.replicate 1025 '['.toUInt8) =
      [some (List.replicate 1025 ⟨.token JSON_OPERATOR, ['['.toUInt8]⟩)] := by
  have hlex : json_lexer_feed json_lexer_init (List.replicate 1025 '['.toUInt8) =
      (json_lexer_init, List.replicate 1025 ⟨.token JSON_OPERATOR, ['['.toUInt8]⟩) :=
    json_lexer_feed_replicate_operator (by decide) 1025
  have hcollect := processTokens_replicate_lbracket json_lexer_init 1024 0 le_rfl
  have hcut : json_message_process_token
      ⟨json_lexer_init, 0, ((0 + 1024 : Nat) : Int),
        List.replicate (0 + 1024) ⟨.token JSON_OPERATOR, ['['.toUInt8]⟩, 0 + 1024⟩
      ⟨.token JSON_OPERATOR, ['['.toUInt8]⟩ =
      (⟨json_lexer_init, 0, 0, [], 0⟩,
        [some (List.replicate (0 + 1024) ⟨.token JSON_OPERATOR, ['['.toUInt8]⟩ ++
          [⟨.token JSON_OPERATOR, ['['.toUInt8]⟩])]) := by
    rw [json_message_process_token_cut (by decide) (by simp only [nesting_lbracket]; omega)
      (.inr (.inl (by simp only [nesting_lbracket]; decide)))]
  have hfeed : json_message_parser_feed json_message_parser_init
      (List.replicate 1025 '['.toUInt8) =
      (⟨json_lexer_init, 0, 0, [], 0⟩,
        [some (List.replicate 1025 ⟨.token JSON_OPERATOR, ['['.toUInt8]⟩)]) := by
    unfold json_message_parser_feed
    rw [show json_message_parser_init.lexer = json_lexer_init from rfl, hlex]
    dsimp only
    rw [show List.replicate 1025 (⟨.token JSON_OPERATOR, ['['.toUInt8]⟩ : JSONToken) =
      List.replicate 1024 ⟨.token JSON_OPERATOR, ['['.toUInt8]⟩ ++
        [⟨.token JSON_OPERATOR, ['['.toUInt8]⟩] from List.replicate_succ' .., processTokens_append]
    rw [show ({ json_message_parser_init with lexer := json_lexer_init } : JSONMessageParser) =
      ⟨json_lexer_init, 0, ((0 : Nat) : Int),
        List.replicate 0 ⟨.token JSON_OPERATOR, ['['.toUInt8]⟩, 0⟩ from rfl, hcollect]
    simp only [processTokens, hcut, List.nil_append, List.append_nil]
  unfold feedAndFlush
  rw [hfeed]
  rfl

end Brackets

theorem json_nesting_limit_abort :
    feedAndFlush (List.replicate 1025 '['.toUInt8) =
      [some (List.replicate 1025 ⟨.token JSON_OPERATOR, ['['.toUInt8]⟩)] ∧
    json_parser_parse (some (List.replicate 1025 ⟨.token JSON_OPERATOR, ['['.toUInt8]⟩)) =
      .error .peek := by
  refine ⟨feedAndFlush_replicate_lbracket, ?_⟩
  unfold json_parser_parse
  dsimp only
  rw [if_neg (by rw [List.length_replicate]; omega), parse_value_replicate_lbracket 1024 0 rfl]
  rfl

end Qemu.Qobject
