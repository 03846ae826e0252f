import Qemu.Lib.KeyedList
import Mathlib.Algebra.BigOperators.Fin

/-!
The dictionary of QEMU's object model (`qobject/qdict.c`): a hash table of `QDICT_BUCKET_MAX`
chained buckets, keyed by C strings and hashed with `tdb_hash`. A key is the bytes of its C
string without the terminating NUL, so `strcmp(a, b) == 0` is `a = b`. The stored `QObject *`
is a value of any type `V`, since the table never looks into it; reference counts are not
modelled. A `QDictEntry *` is the entry's position: its bucket and its index in the bucket's
list, counted from the head, where `QLIST_INSERT_HEAD` puts a new entry.
-/

namespace Qemu.Qobject

def QDICT_BUCKET_MAX : Nat := 512

structure QDictEntry (V : Type) where
  key : List UInt8
  value : V

structure QDict (V : Type) where
  size : Nat
  table : Fin QDICT_BUCKET_MAX → List (QDictEntry V)

-- A pointer to an entry: its bucket and its index in that bucket's list.
abbrev EntryPos := Fin QDICT_BUCKET_MAX × Nat

variable {V : Type}

def qdict_new : QDict V := ⟨0, fun _ => []⟩

-- `tdb_hash`: `unsigned` arithmetic is `UInt32`, and so is the counter `i` in `i*5 % 24`.
def tdb_hash (name : List UInt8) : UInt32 :=
  let value := name.zipIdx.foldl
    (fun value (c, i) => value + (c.toUInt32 <<< (UInt32.ofNat i * 5 % 24)))
    (0x238F13AF * UInt32.ofNat name.length)
  1103515243 * value + 12345

-- `tdb_hash(key) % QDICT_BUCKET_MAX`, the bucket of a key.
def bucketOf (key : List UInt8) : Fin QDICT_BUCKET_MAX :=
  ⟨(tdb_hash key).toNat % QDICT_BUCKET_MAX, Nat.mod_lt _ (by decide)⟩

-- The index in `bucket` of the entry with `key`, if any.
def qdict_find (qdict : QDict V) (key : List UInt8) (bucket : Fin QDICT_BUCKET_MAX) :
    Option Nat :=
  (qdict.table bucket).findIdx? fun entry => entry.key = key

def qdict_put_obj (qdict : QDict V) (key : List UInt8) (value : V) : QDict V :=
  let bucket := bucketOf key
  match qdict_find qdict key bucket with
  | some i =>
    -- replace key's value
    { qdict with
      table := Function.update qdict.table bucket
        ((qdict.table bucket).modify i fun entry => { entry with value := value }) }
  | none =>
    -- allocate a new entry
    { size := qdict.size + 1
      table := Function.update qdict.table bucket (⟨key, value⟩ :: qdict.table bucket) }

def qdict_get (qdict : QDict V) (key : List UInt8) : Option V :=
  match qdict_find qdict key (bucketOf key) with
  | none => none
  | some i => ((qdict.table (bucketOf key))[i]?).map (·.value)

def qdict_haskey (qdict : QDict V) (key : List UInt8) : Int :=
  if qdict_find qdict key (bucketOf key) = none then 0 else 1

def qdict_size (qdict : QDict V) : Nat := qdict.size

def qdict_del (qdict : QDict V) (key : List UInt8) : QDict V :=
  let bucket := bucketOf key
  match qdict_find qdict key bucket with
  | some i =>
    { size := qdict.size - 1
      table := Function.update qdict.table bucket ((qdict.table bucket).eraseIdx i) }
  | none => qdict

-- `for (i = first_bucket; i < QDICT_BUCKET_MAX; i++)`: the head of the first nonempty bucket
-- from `first_bucket` on; `n` counts the buckets left.
def qdict_next_entry (qdict : QDict V) (first_bucket : Nat) : Option EntryPos :=
  go (QDICT_BUCKET_MAX - first_bucket) first_bucket
where
  go : Nat → Nat → Option EntryPos
    | 0, _ => none
    | n + 1, i =>
      if h : i < QDICT_BUCKET_MAX then
        if qdict.table ⟨i, h⟩ ≠ [] then some (⟨i, h⟩, 0) else go n (i + 1)
      else none

def qdict_first (qdict : QDict V) : Option EntryPos := qdict_next_entry qdict 0

-- `QLIST_NEXT(entry)`, and after a bucket's last entry the next nonempty bucket after the
-- one the entry's key hashes to.
def qdict_next (qdict : QDict V) (entry : EntryPos) : Option EntryPos :=
  match (qdict.table entry.1)[entry.2 + 1]? with
  | some _ => some (entry.1, entry.2 + 1)
  | none =>
    match (qdict.table entry.1)[entry.2]? with
    | some e => qdict_next_entry qdict ((bucketOf e.key).val + 1)
    | none => none

-- The entry a pointer points to.
def entryAt (qdict : QDict V) (entry : EntryPos) : Option (QDictEntry V) :=
  (qdict.table entry.1)[entry.2]?

-- `for (e = qdict_first(qdict); e; e = qdict_next(qdict, e))`: the pointer after `n` steps.
def walk (qdict : QDict V) : Nat → Option EntryPos
  | 0 => qdict_first qdict
  | n + 1 => (walk qdict n).bind (qdict_next qdict)

/-! ### Spec lemmas -/

open KeyedList

theorem qdict_find_eq_none_iff (qdict : QDict V) (key : List UInt8) (b : Fin QDICT_BUCKET_MAX) :
    qdict_find qdict key b = none ↔ key ∉ (qdict.table b).map QDictEntry.key := by
  unfold qdict_find
  rw [List.findIdx?_eq_none_iff]
  simp

-- `qdict_get` finds what a search of the key's bucket from its head finds.
theorem qdict_get_eq_lookup (qdict : QDict V) (key : List UInt8) :
    qdict_get qdict key = (lookup QDictEntry.key (qdict.table (bucketOf key)) key).map (·.value) := by
  unfold qdict_get lookup
  rw [← findIdx?_bind_getElem?]
  unfold qdict_find
  cases (qdict.table (bucketOf key)).findIdx? (fun entry => entry.key = key) <;> rfl

theorem qdict_haskey_eq (qdict : QDict V) (key : List UInt8) :
    qdict_haskey qdict key = if key ∈ (qdict.table (bucketOf key)).map QDictEntry.key then 1 else 0 := by
  unfold qdict_haskey
  by_cases h : key ∈ (qdict.table (bucketOf key)).map QDictEntry.key
  · rw [if_neg (mt (qdict_find_eq_none_iff _ _ _).mp (not_not.mpr h)), if_pos h]
  · rw [if_pos ((qdict_find_eq_none_iff _ _ _).mpr h), if_neg h]

-- `qdict_haskey` answers 1 exactly when `qdict_get` finds a value.
theorem qdict_haskey_eq_get (qdict : QDict V) (key : List UInt8) :
    qdict_haskey qdict key = if (qdict_get qdict key).isSome then 1 else 0 := by
  have hiff : (qdict_get qdict key).isSome ↔ key ∈ (qdict.table (bucketOf key)).map QDictEntry.key := by
    rw [qdict_get_eq_lookup, Option.isSome_map, ← Option.ne_none_iff_isSome, Ne, lookup_eq_none_iff,
      not_not]
  rw [qdict_haskey_eq]
  exact if_congr hiff.symm rfl rfl

-- With the keys of its bucket distinct, `qdict_put_obj` either gives the entry with the key
-- the new value or puts a new entry at the head of the bucket.
theorem qdict_put_obj_cases (qdict : QDict V) (key : List UInt8) (value : V)
    (h : NodupKeys QDictEntry.key (qdict.table (bucketOf key))) :
    (key ∈ (qdict.table (bucketOf key)).map QDictEntry.key ∧
      qdict_put_obj qdict key value =
        { qdict with
          table := Function.update qdict.table (bucketOf key)
            ((qdict.table (bucketOf key)).map fun e =>
              if e.key = key then { e with value := value } else e) }) ∨
    (key ∉ (qdict.table (bucketOf key)).map QDictEntry.key ∧
      qdict_put_obj qdict key value =
        { size := qdict.size + 1
          table := Function.update qdict.table (bucketOf key)
            (⟨key, value⟩ :: qdict.table (bucketOf key)) }) := by
  unfold qdict_put_obj
  dsimp only
  cases hf : qdict_find qdict key (bucketOf key) with
  | none => exact .inr ⟨(qdict_find_eq_none_iff _ _ _).mp hf, rfl⟩
  | some i =>
    have hmem : key ∈ (qdict.table (bucketOf key)).map QDictEntry.key :=
      not_not.mp (mt (qdict_find_eq_none_iff _ _ _).mpr (by simp [hf]))
    refine .inl ⟨hmem, ?_⟩
    dsimp only
    rw [modify_findIdx? h hf]

-- With the keys of its bucket distinct, `qdict_del` either removes the entry with the key
-- or changes nothing.
theorem qdict_del_cases (qdict : QDict V) (key : List UInt8)
    (h : NodupKeys QDictEntry.key (qdict.table (bucketOf key))) :
    (key ∈ (qdict.table (bucketOf key)).map QDictEntry.key ∧
      qdict_del qdict key =
        { size := qdict.size - 1
          table := Function.update qdict.table (bucketOf key)
            ((qdict.table (bucketOf key)).filter fun e => e.key ≠ key) }) ∨
    (key ∉ (qdict.table (bucketOf key)).map QDictEntry.key ∧ qdict_del qdict key = qdict) := by
  unfold qdict_del
  dsimp only
  cases hf : qdict_find qdict key (bucketOf key) with
  | none => exact .inr ⟨(qdict_find_eq_none_iff _ _ _).mp hf, rfl⟩
  | some i =>
    have hmem : key ∈ (qdict.table (bucketOf key)).map QDictEntry.key :=
      not_not.mp (mt (qdict_find_eq_none_iff _ _ _).mpr (by simp [hf]))
    refine .inl ⟨hmem, ?_⟩
    -- `QLIST_REMOVE` of the entry found is the removal of the first entry with the key
    have herase := @List.eraseP_eq_eraseIdx _ (qdict.table (bucketOf key))
      (fun e => decide (e.key = key))
    unfold qdict_find at hf
    rw [hf] at herase
    dsimp only at herase ⊢
    rw [← herase, eraseP_eq_filter h]

end Qemu.Qobject
