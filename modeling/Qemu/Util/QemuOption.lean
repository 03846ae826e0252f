import Mathlib.Data.List.Basic
import Mathlib.Data.Nat.Init

/-!
Option strings (`util/qemu-option.c`): `qemu_opts_parse` cuts a string `name=value,...` into
the options of a new `QemuOpts` in a `QemuOptsList`; a comma inside a value is written twice.
A C string is the list of its characters before the NUL, and a pointer into it the rest of the
list from there. The `char option[128], value[1024]` buffers keep at most 127 and 1023
characters. The types of described options (`QemuOptDesc.type`, `qemu_opt_parse`) are left
out: a list with descriptions accepts the options it names, and a list without any accepts
every option, as strings.
-/

namespace Qemu.Util

/-! ### Names and values -/

-- The loop of `get_opt_name`; `q` is what `buf` holds so far.
def getOptNameLoop (buf_size : Nat) (delim : Char) (q : List Char) : List Char → List Char × List Char
  | [] => (q, [])
  | c :: p =>
      if c ≠ delim then
        getOptNameLoop buf_size delim (if q.length < buf_size - 1 then q ++ [c] else q) p
      else (q, c :: p)

-- `const char *get_opt_name(char *buf, int buf_size, const char *p, char delim)`: the name
-- left in `buf` and the pointer at the delimiter or the end.
def get_opt_name (buf_size : Nat) (p : List Char) (delim : Char) : List Char × List Char :=
  getOptNameLoop buf_size delim [] p

-- The loop of `get_opt_value`: a doubled comma is one comma of the value, a single one ends it.
def getOptValueLoop (buf_size : Nat) (q : List Char) : List Char → List Char × List Char
  | [] => (q, [])
  | c :: p =>
      if c = ',' then
        match p with
        | ',' :: p' =>
            getOptValueLoop buf_size (if q.length < buf_size - 1 then q ++ [','] else q) p'
        | _ => (q, c :: p)
      else getOptValueLoop buf_size (if q.length < buf_size - 1 then q ++ [c] else q) p

-- `const char *get_opt_value(char *buf, int buf_size, const char *p)`.
def get_opt_value (buf_size : Nat) (p : List Char) : List Char × List Char :=
  getOptValueLoop buf_size [] p

/-! ### Option lists -/

structure QemuOpt where
  name : List Char
  str : List Char
deriving DecidableEq, Repr

structure QemuOpts where
  id : Option (List Char)
  head : List QemuOpt
deriving DecidableEq, Repr

-- The fields of a `QemuOptsList` the parser reads; `desc` holds the names of the described
-- options.
structure QemuOptsList where
  implied_opt_name : Option (List Char)
  merge_lists : Bool
  head : List QemuOpts
  desc : List (List Char)
deriving DecidableEq, Repr

-- `opts_accepts_any`: a list without descriptions.
def opts_accepts_any (list : QemuOptsList) : Bool := list.desc.isEmpty

-- `static void opt_set(QemuOpts *opts, const char *name, const char *value, bool prepend,
-- Error **errp)`: `none` when the error is set.
def opt_set (list : QemuOptsList) (opts : QemuOpts) (name value : List Char) (prepend : Bool) :
    Option QemuOpts :=
  if name ∉ list.desc ∧ !opts_accepts_any list then none
  else
    let opt : QemuOpt := ⟨name, value⟩
    some { opts with head := if prepend then opt :: opts.head else opts.head ++ [opt] }

-- `QemuOpts *qemu_opts_find(QemuOptsList *list, const char *id)`: the position of the first
-- `QemuOpts` with that id. (With `id == NULL` the code calls `strcmp(opts->id, NULL)` on an
-- entry that has an id; here that entry does not match.)
def qemu_opts_find (list : QemuOptsList) (id : Option (List Char)) : Option Nat :=
  list.head.findIdx? fun opts => opts.id == id

-- `static int id_wellformed(const char *id)`: a letter, then letters, digits, `-`, `.`, `_`.
def id_wellformed : List Char → Bool
  | [] => false
  | c :: cs => c.isAlpha && cs.all fun c => c.isAlphanum || "-._".toList.contains c

-- `QemuOpts *qemu_opts_create(QemuOptsList *list, const char *id, int fail_if_exists,
-- Error **errp)`: the list after it and the position of the `QemuOpts` it returns, `none` for
-- `NULL`. A new `QemuOpts` goes at the tail.
def qemu_opts_create (list : QemuOptsList) (id : Option (List Char)) (fail_if_exists : Bool) :
    Option (QemuOptsList × Nat) :=
  let fresh := some ({ list with head := list.head ++ [⟨id, []⟩] }, list.head.length)
  match id with
  | some i =>
      if !id_wellformed i then none
      else
        match qemu_opts_find list id with
        | some k => if fail_if_exists && !list.merge_lists then none else some (list, k)
        | none => fresh
  | none =>
      if list.merge_lists then
        match qemu_opts_find list none with
        | some k => some (list, k)
        | none => fresh
      else fresh

/-! ### Parsing -/

-- `!pe || (pc && pc < pe)`, with `pe = strchr(p, '=')` and `pc = strchr(p, ',')`: the option
-- at `p` has no value.
def noValue (p : List Char) : Bool :=
  match p.idxOf? '=', p.idxOf? ',' with
  | none, _ => true
  | some pe, some pc => pc < pe
  | some _, none => false

-- One option of `opts_do_parse` from `p`: its name, its value and the pointer after them, or
-- `none` where the loop breaks. `first` is `p == params`.
def parseOne (firstname : Option (List Char)) (first : Bool) (p : List Char) :
    Option (List Char × List Char × List Char) :=
  if noValue p then
    -- found "foo,more"
    match first, firstname with
    | true, some f =>
        -- implicitly named first option
        let value := get_opt_value 1024 p
        some (f.take 127, value.1, value.2)
    | _, _ =>
        -- option without value, probably a flag
        let option := get_opt_name 128 p ','
        if option.1.take 2 = "no".toList then some (option.1.drop 2, "off".toList, option.2)
        else some (option.1, "on".toList, option.2)
  else
    -- found "foo=bar,more"
    let option := get_opt_name 128 p '='
    match option.2 with
    | '=' :: p =>
        let value := get_opt_value 1024 p
        some (option.1, value.1, value.2)
    | _ => none

theorem getOptNameLoop_length_le (buf_size : Nat) (delim : Char) (q p : List Char) :
    (getOptNameLoop buf_size delim q p).2.length ≤ p.length := by
  induction p generalizing q with
  | nil => simp [getOptNameLoop]
  | cons c p ih =>
      rw [getOptNameLoop]
      split
      · exact Nat.le_succ_of_le (ih _)
      · exact Nat.le_refl _

theorem getOptValueLoop_length_le (buf_size : Nat) (q p : List Char) :
    (getOptValueLoop buf_size q p).2.length ≤ p.length := by
  fun_induction getOptValueLoop buf_size q p with
  | case1 => exact Nat.le_refl _
  | case2 q p ih =>
      simp only [List.length_cons]
      omega
  | case3 => exact Nat.le_refl _
  | case4 q c p hc ih =>
      simp only [List.length_cons]
      omega

-- Each option `opts_do_parse` reads leaves the pointer at or after where it started.
theorem parseOne_length_le {firstname : Option (List Char)} {first : Bool}
    {p option value rest : List Char}
    (h : parseOne firstname first p = some (option, value, rest)) : rest.length ≤ p.length := by
  have hname := getOptNameLoop_length_le 128 ',' [] p
  have hvalue := getOptValueLoop_length_le 1024 [] p
  unfold parseOne at h
  dsimp only at h
  split at h
  · split at h
    · cases h
      exact hvalue
    · split at h <;> cases h <;> exact hname
  · split at h
    · rename_i p' hp
      cases h
      have h1 := getOptNameLoop_length_le 128 '=' [] p
      have h2 := getOptValueLoop_length_le 1024 [] p'
      unfold get_opt_name at hp
      rw [hp, List.length_cons] at h1
      unfold get_opt_value
      omega
    · cases h

-- The loop of `static int opts_do_parse(QemuOpts *opts, const char *params,
-- const char *firstname, bool prepend)` from `p`: the options stored so far, `none` for -1.
-- An option named `id` is not stored.
def optsDoParseLoop (list : QemuOptsList) (firstname : Option (List Char)) (prepend first : Bool)
    (opts : QemuOpts) (p : List Char) : Option QemuOpts :=
  match p with
  | [] => some opts
  | c :: cs =>
      match h : parseOne firstname first (c :: cs) with
      | none => some opts
      | some (option, value, rest) =>
          let stored := if option ≠ "id".toList then opt_set list opts option value prepend
            else some opts
          match stored with
          | none => none
          | some opts =>
              match rest with
              | ',' :: rest' => optsDoParseLoop list firstname prepend false opts rest'
              | _ => some opts
termination_by p.length
decreasing_by
  have := parseOne_length_le h
  simp only [List.length_cons] at this ⊢
  omega

def opts_do_parse (list : QemuOptsList) (opts : QemuOpts) (params : List Char)
    (firstname : Option (List Char)) (prepend : Bool) : Option QemuOpts :=
  optsDoParseLoop list firstname prepend true opts params

-- `strstr(haystack, needle)`: the rest of `haystack` from the first place `needle` starts.
def strstr (needle : List Char) : List Char → Option (List Char)
  | [] => if needle = [] then some [] else none
  | c :: cs => if needle.isPrefixOf (c :: cs) then some (c :: cs) else strstr needle cs

-- `static QemuOpts *opts_parse(QemuOptsList *list, const char *params, int permit_abbrev,
-- bool defaults)`: the list after it and the options, `none` for `NULL`. The id is taken by
-- a scan of the raw string for `id=` at its start or `,id=` anywhere.
def opts_parse (list : QemuOptsList) (params : List Char) (permit_abbrev defaults : Bool) :
    QemuOptsList × Option QemuOpts :=
  let firstname := if permit_abbrev then list.implied_opt_name else none
  let id : Option (List Char) :=
    if "id=".toList.isPrefixOf params then some (get_opt_value 1024 (params.drop 3)).1
    else (strstr ",id=".toList params).map fun p => (get_opt_value 1024 (p.drop 4)).1
  let created :=
    if defaults then
      if id.isNone ∧ list.head ≠ [] then (qemu_opts_find list none).map fun k => (list, k)
      else qemu_opts_create list id false
    else qemu_opts_create list id true
  match created with
  | none => (list, none)
  | some (list, k) =>
      match list.head[k]? with
      | none => (list, none)
      | some opts =>
          match opts_do_parse list opts params firstname defaults with
          | none => ({ list with head := list.head.eraseIdx k }, none)
          | some opts => ({ list with head := list.head.set k opts }, some opts)

-- `QemuOpts *qemu_opts_parse(QemuOptsList *list, const char *params, int permit_abbrev)`.
def qemu_opts_parse (list : QemuOptsList) (params : List Char) (permit_abbrev : Bool) :
    QemuOptsList × Option QemuOpts :=
  opts_parse list params permit_abbrev false

-- A fresh list that accepts every option.
def anyOptsList : QemuOptsList := ⟨none, false, [], []⟩

-- `a=x,,id=y` is the one option `a`, of value `x,id=y`, and no id; the scan for `,id=` finds
-- the text inside the value and gives the options the id `y`.
theorem qemu_opts_parse_escaped_id :
    qemu_opts_parse anyOptsList "a=x,,id=y".toList false =
      (⟨none, false, [⟨some "y".toList, [⟨"a".toList, "x,id=y".toList⟩]⟩], []⟩,
        some ⟨some "y".toList, [⟨"a".toList, "x,id=y".toList⟩]⟩) := by
  have hp : "a=x,,id=y".toList = ['a', '=', 'x', ',', ',', 'i', 'd', '=', 'y'] := rfl
  simp only [qemu_opts_parse, opts_parse, opts_do_parse, hp, optsDoParseLoop]
  decide

end Qemu.Util
