import Qemu.Qobject.Qdict

/-!
What a `QDict` is for: a finite map from keys to values. `QDict.WF` is its representation
invariant: every entry sits in the bucket its key hashes to, no bucket holds a key twice, and
`size` counts the entries. `qdict_new` has it and `qdict_put_obj` and `qdict_del` keep it;
under it `qdict_get` is the map that the puts and deletes so far describe (`latest`),
`qdict_size` counts its keys, and the walk `qdict_first`, `qdict_next`, ... takes every entry
once, bucket by bucket, and then ends.
-/

namespace Qemu.Qobject

open KeyedList

variable {V : Type}

/-! ### The entries, bucket by bucket -/

section Order

variable (t : Fin QDICT_BUCKET_MAX → List (QDictEntry V))

-- The entries of buckets `i`, `i + 1`, ...; `n` counts the buckets left, as in
-- `qdict_next_entry`.
def entriesFrom : Nat → Nat → List (QDictEntry V)
  | 0, _ => []
  | n + 1, i => if h : i < QDICT_BUCKET_MAX then t ⟨i, h⟩ ++ entriesFrom n (i + 1) else []

-- Their positions.
def positionsFrom : Nat → Nat → List EntryPos
  | 0, _ => []
  | n + 1, i =>
    if h : i < QDICT_BUCKET_MAX then
      (List.range (t ⟨i, h⟩).length).map (fun j => (⟨i, h⟩, j)) ++ positionsFrom n (i + 1)
    else []

end Order

def entries (qdict : QDict V) : List (QDictEntry V) :=
  entriesFrom qdict.table QDICT_BUCKET_MAX 0

-- The representation invariant.
structure QDict.WF (qdict : QDict V) : Prop where
  bucket : ∀ b, ∀ e ∈ qdict.table b, bucketOf e.key = b
  nodup : ∀ b, NodupKeys QDictEntry.key (qdict.table b)
  size : qdict.size = (entries qdict).length

section Order

variable {t : Fin QDICT_BUCKET_MAX → List (QDictEntry V)}

theorem mem_entriesFrom {e : QDictEntry V} :
    ∀ n i, e ∈ entriesFrom t n i ↔ ∃ b : Fin QDICT_BUCKET_MAX, i ≤ b.val ∧ b.val < i + n ∧ e ∈ t b := by
  intro n
  induction n with
  | zero =>
    intro i
    simp only [entriesFrom, List.not_mem_nil, false_iff, not_exists, not_and]
    intro b h1 h2
    omega
  | succ n ih =>
    intro i
    by_cases h : i < QDICT_BUCKET_MAX
    · rw [entriesFrom, dif_pos h, List.mem_append, ih]
      constructor
      · rintro (he | ⟨b, hb1, hb2, he⟩)
        · exact ⟨⟨i, h⟩, le_rfl, by simp, he⟩
        · exact ⟨b, by omega, by omega, he⟩
      · rintro ⟨b, hb1, hb2, he⟩
        by_cases hbi : b.val = i
        · left
          have : b = ⟨i, h⟩ := Fin.ext hbi
          rwa [← this]
        · exact .inr ⟨b, by omega, by omega, he⟩
    · rw [entriesFrom, dif_neg h]
      simp only [List.not_mem_nil, false_iff, not_exists, not_and]
      intro b hb _
      have := b.isLt
      omega

theorem mem_entries {qdict : QDict V} {e : QDictEntry V} :
    e ∈ entries qdict ↔ ∃ b, e ∈ qdict.table b := by
  rw [entries, mem_entriesFrom]
  constructor
  · rintro ⟨b, -, -, he⟩
    exact ⟨b, he⟩
  · rintro ⟨b, he⟩
    exact ⟨b, Nat.zero_le _, by have := b.isLt; omega, he⟩

-- Buckets before `i` do not count.
theorem entriesFrom_update_of_lt {b : Fin QDICT_BUCKET_MAX} (l : List (QDictEntry V)) :
    ∀ n i, b.val < i → entriesFrom (Function.update t b l) n i = entriesFrom t n i := by
  intro n
  induction n with
  | zero => intro i _; rfl
  | succ n ih =>
    intro i hb
    unfold entriesFrom
    by_cases h : i < QDICT_BUCKET_MAX
    · have hne : (⟨i, h⟩ : Fin QDICT_BUCKET_MAX) ≠ b := fun he => by rw [← he] at hb; simp at hb
      rw [dif_pos h, dif_pos h, Function.update_of_ne hne, ih (i + 1) (by omega)]
    · rw [dif_neg h, dif_neg h]

-- Replacing bucket `b` by `l` changes the number of entries by the difference in length.
theorem length_entriesFrom_update {b : Fin QDICT_BUCKET_MAX} (l : List (QDictEntry V)) :
    ∀ n i, i ≤ b.val → i + n = QDICT_BUCKET_MAX →
      (entriesFrom (Function.update t b l) n i).length + (t b).length =
        (entriesFrom t n i).length + l.length := by
  intro n
  induction n with
  | zero =>
    intro i hi hn
    have := b.isLt
    omega
  | succ n ih =>
    intro i hi hn
    have h : i < QDICT_BUCKET_MAX := by omega
    unfold entriesFrom
    rw [dif_pos h, dif_pos h, List.length_append, List.length_append]
    by_cases hbi : b.val = i
    · -- the bucket replaced is this one, and the rest are as they were
      have hb : b = ⟨i, h⟩ := Fin.ext hbi
      subst hb
      rw [Function.update_self, entriesFrom_update_of_lt l n (i + 1) (by simp)]
      omega
    · have hne : (⟨i, h⟩ : Fin QDICT_BUCKET_MAX) ≠ b := fun he => hbi (by rw [← he])
      rw [Function.update_of_ne hne]
      have := ih (i + 1) (by omega) (by omega)
      omega

theorem length_entries_update (qdict : QDict V) (b : Fin QDICT_BUCKET_MAX)
    (l : List (QDictEntry V)) :
    (entriesFrom (Function.update qdict.table b l) QDICT_BUCKET_MAX 0).length +
      (qdict.table b).length = (entries qdict).length + l.length :=
  length_entriesFrom_update l QDICT_BUCKET_MAX 0 (Nat.zero_le _) (Nat.zero_add _)

-- With every entry in the bucket of its key and no bucket holding a key twice, no key is
-- held twice.
theorem nodup_keys_entriesFrom (hbucket : ∀ b, ∀ e ∈ t b, bucketOf e.key = b)
    (hnodup : ∀ b, NodupKeys QDictEntry.key (t b)) :
    ∀ n i, ((entriesFrom t n i).map QDictEntry.key).Nodup := by
  intro n
  induction n with
  | zero => intro i; exact List.nodup_nil
  | succ n ih =>
    intro i
    unfold entriesFrom
    by_cases h : i < QDICT_BUCKET_MAX
    · rw [dif_pos h, List.map_append, List.nodup_append]
      refine ⟨hnodup _, ih (i + 1), ?_⟩
      -- a key of bucket `i` hashes to `i`, a key of a later bucket does not
      intro k hk k' hk' hkk
      obtain ⟨e, he, rfl⟩ := List.mem_map.mp hk
      obtain ⟨e', he', rfl⟩ := List.mem_map.mp hk'
      obtain ⟨b', hb', -, he''⟩ := (mem_entriesFrom n (i + 1)).mp he'
      have h1 := hbucket _ e he
      have h2 := hbucket _ e' he''
      rw [hkk, h2] at h1
      rw [h1] at hb'
      exact absurd hb' (by simp)
    · rw [dif_neg h]
      exact List.nodup_nil

end Order

/-! ### The walk -/

section Walk

variable (qdict : QDict V)

-- The loop of `qdict_next_entry` stops at the first position of the buckets it scans.
theorem qdict_next_entry_go_eq :
    ∀ n i, qdict_next_entry.go qdict n i = (positionsFrom qdict.table n i).head? := by
  intro n
  induction n with
  | zero => intro i; rfl
  | succ n ih =>
    intro i
    unfold qdict_next_entry.go positionsFrom
    by_cases h : i < QDICT_BUCKET_MAX
    · rw [dif_pos h, dif_pos h]
      by_cases he : qdict.table ⟨i, h⟩ = []
      · rw [if_neg (not_not.mpr he), he, ih]
        rfl
      · rw [if_pos he]
        obtain ⟨e, l, hel⟩ := List.exists_cons_of_ne_nil he
        rw [hel, List.length_cons, List.range_succ_eq_map]
        rfl
    · rw [dif_neg h, dif_neg h]
      rfl

-- Position `j` of a bucket holds its `j`-th entry.
theorem map_entryAt_positionsFrom :
    ∀ n i, (positionsFrom qdict.table n i).map (entryAt qdict) =
      (entriesFrom qdict.table n i).map some := by
  intro n
  induction n with
  | zero => intro i; rfl
  | succ n ih =>
    intro i
    unfold positionsFrom entriesFrom
    by_cases h : i < QDICT_BUCKET_MAX
    · rw [dif_pos h, dif_pos h, List.map_append, List.map_append, ih, List.map_map]
      congr 1
      apply List.ext_getElem (by simp)
      intro j h1 h2
      simp [entryAt]
    · rw [dif_neg h, dif_neg h]
      rfl

variable {qdict}

-- `qdict_next` steps through the positions in bucket order: within a bucket to the next
-- entry, and from a bucket's last entry, through the bucket its key hashes to, to the head
-- of the next nonempty bucket.
theorem enumerates_positionsFrom (hbucket : ∀ b, ∀ e ∈ qdict.table b, bucketOf e.key = b) :
    ∀ n i, i + n = QDICT_BUCKET_MAX →
      Enumerates (qdict_next qdict) (positionsFrom qdict.table n i) := by
  intro n
  induction n with
  | zero =>
    intro i _ m hm
    simp [positionsFrom] at hm
  | succ n ih =>
    intro i hn
    have h : i < QDICT_BUCKET_MAX := by omega
    rw [positionsFrom, dif_pos h]
    apply Enumerates.append _ (ih (i + 1) (by omega))
    intro j hj
    rw [List.length_map, List.length_range] at hj
    rw [List.getElem_map, List.getElem_range]
    unfold qdict_next
    dsimp only
    by_cases hj1 : j + 1 < (qdict.table ⟨i, h⟩).length
    · rw [List.getElem?_eq_getElem hj1, List.getElem?_append_left (by simpa using hj1)]
      simp [hj1]
    · rw [List.getElem?_eq_none (by omega), List.getElem?_eq_getElem hj]
      dsimp only
      rw [hbucket _ _ (List.getElem_mem hj), qdict_next_entry, qdict_next_entry_go_eq,
        show QDICT_BUCKET_MAX - (i + 1) = n by omega,
        List.getElem?_append_right (by simp; omega), List.length_map, List.length_range,
        show j + 1 - (qdict.table ⟨i, h⟩).length = 0 by omega, List.head?_eq_getElem?]

theorem walk_eq_getElem? (h : qdict.WF) (n : Nat) :
    walk qdict n = (positionsFrom qdict.table QDICT_BUCKET_MAX 0)[n]? := by
  refine iterate_eq_getElem? (enumerates_positionsFrom h.bucket _ 0 (Nat.zero_add _)) ?_
    (fun n => rfl) n
  rw [walk, qdict_first, qdict_next_entry, qdict_next_entry_go_eq, Nat.sub_zero,
    List.head?_eq_getElem?]

-- After `n` steps the walk is at the `n`-th entry.
theorem walk_entryAt (h : qdict.WF) (n : Nat) :
    (walk qdict n).bind (entryAt qdict) = (entries qdict)[n]? := by
  have hmap := congrArg (·[n]?) (map_entryAt_positionsFrom qdict QDICT_BUCKET_MAX 0)
  simp only [List.getElem?_map] at hmap
  rw [walk_eq_getElem? h]
  unfold entries
  cases hp : (positionsFrom qdict.table QDICT_BUCKET_MAX 0)[n]? with
  | none =>
    rw [hp] at hmap
    cases he : (entriesFrom qdict.table QDICT_BUCKET_MAX 0)[n]? with
    | none => rfl
    | some e => rw [he] at hmap; cases hmap
  | some p =>
    rw [hp] at hmap
    cases he : (entriesFrom qdict.table QDICT_BUCKET_MAX 0)[n]? with
    | none => rw [he] at hmap; cases hmap
    | some e =>
      rw [he] at hmap
      exact Option.some.inj hmap

-- After as many steps as there are entries the walk has ended.
theorem walk_length (h : qdict.WF) : walk qdict (entries qdict).length = none := by
  have hlen := congrArg List.length (map_entryAt_positionsFrom qdict QDICT_BUCKET_MAX 0)
  simp only [List.length_map] at hlen
  rw [walk_eq_getElem? h, List.getElem?_eq_none]
  unfold entries
  omega

-- The walk reaches each entry at exactly one step: the entries are distinct, since their
-- keys are.
theorem walk_visits_once (h : qdict.WF) {e : QDictEntry V} (he : e ∈ entries qdict) :
    ∃! n, (walk qdict n).bind (entryAt qdict) = some e := by
  have hnodup : (entries qdict).Nodup :=
    (nodup_keys_entriesFrom h.bucket h.nodup QDICT_BUCKET_MAX 0).of_map _
  obtain ⟨n, hn, hget⟩ := List.getElem_of_mem he
  refine ⟨n, ?_, ?_⟩
  · show (walk qdict n).bind (entryAt qdict) = some e
    rw [walk_entryAt h, List.getElem?_eq_getElem hn, hget]
  · intro m hm
    rw [walk_entryAt h] at hm
    obtain ⟨hm', hget'⟩ := List.getElem?_eq_some_iff.mp hm
    exact (hnodup.getElem_inj_iff.mp (hget'.trans hget.symm))

end Walk

/-! ### The invariant is kept -/

section Invariant

variable {qdict : QDict V}

theorem QDict.WF.new : (qdict_new : QDict V).WF where
  bucket := fun _ _ he => absurd he List.not_mem_nil
  nodup := fun _ => List.nodup_nil
  size := by
    have hnil : entries (qdict_new : QDict V) = [] := by
      apply List.eq_nil_iff_forall_not_mem.mpr
      intro e he
      obtain ⟨b, hb⟩ := mem_entries.mp he
      exact List.not_mem_nil hb
    rw [hnil]
    rfl

-- Giving bucket `b` a list of entries that hash to `b`, with distinct keys, and the size that
-- counts them, keeps the invariant.
theorem QDict.WF.update (h : qdict.WF) {b : Fin QDICT_BUCKET_MAX} {l : List (QDictEntry V)}
    (hl : ∀ e ∈ l, bucketOf e.key = b) (hnodup : NodupKeys QDictEntry.key l) {size : Nat}
    (hsize : size + (qdict.table b).length = qdict.size + l.length) :
    ({ size := size, table := Function.update qdict.table b l } : QDict V).WF := by
  refine ⟨?_, ?_, ?_⟩
  · intro b' e he
    dsimp only at he
    by_cases hb : b' = b
    · subst hb
      rw [Function.update_self] at he
      exact hl e he
    · rw [Function.update_of_ne hb] at he
      exact h.bucket b' e he
  · intro b'
    dsimp only
    by_cases hb : b' = b
    · subst hb
      rw [Function.update_self]
      exact hnodup
    · rw [Function.update_of_ne hb]
      exact h.nodup b'
  · have hlen := length_entries_update qdict b l
    have hs := h.size
    show size = (entriesFrom (Function.update qdict.table b l) QDICT_BUCKET_MAX 0).length
    omega

theorem QDict.WF.put (h : qdict.WF) (key : List UInt8) (value : V) :
    (qdict_put_obj qdict key value).WF := by
  have hB := h.bucket (bucketOf key)
  rcases qdict_put_obj_cases qdict key value (h.nodup _) with ⟨-, hput⟩ | ⟨hmem, hput⟩
  · -- the entry with the key keeps its key, so its bucket
    have hl : ∀ e ∈ (qdict.table (bucketOf key)).map (fun e =>
        if e.key = key then { e with value := value } else e), bucketOf e.key = bucketOf key := by
      intro e he
      obtain ⟨e₀, he₀, rfl⟩ := List.mem_map.mp he
      split_ifs
      · exact hB e₀ he₀
      · exact hB e₀ he₀
    rw [hput]
    exact h.update hl ((h.nodup _).map_ite _ fun _ => rfl) (by rw [List.length_map])
  · -- a new entry at the head of the bucket its key hashes to
    have hl : ∀ e ∈ (⟨key, value⟩ :: qdict.table (bucketOf key) : List (QDictEntry V)),
        bucketOf e.key = bucketOf key := by
      intro e he
      rcases List.mem_cons.mp he with rfl | he
      · rfl
      · exact hB e he
    rw [hput]
    exact h.update hl ((h.nodup _).cons hmem) (by rw [List.length_cons]; omega)

theorem QDict.WF.del (h : qdict.WF) (key : List UInt8) : (qdict_del qdict key).WF := by
  rcases qdict_del_cases qdict key (h.nodup _) with ⟨hmem, hdel⟩ | ⟨-, hdel⟩
  · -- exactly one entry has the key, and it goes
    obtain ⟨e, he, hek⟩ := List.mem_map.mp hmem
    have hlen : ((qdict.table (bucketOf key)).filter fun e => e.key ≠ key).length + 1 =
        (qdict.table (bucketOf key)).length := by
      rw [← eraseP_eq_filter (h.nodup _), List.length_eraseP_of_mem he (by simpa using hek)]
      have := List.length_pos_of_mem he
      omega
    have hl : ∀ e ∈ (qdict.table (bucketOf key)).filter (fun e => e.key ≠ key),
        bucketOf e.key = bucketOf key := fun e he => h.bucket _ e (List.mem_filter.mp he).1
    have hs := h.size
    have hempty := length_entries_update qdict (bucketOf key) []
    rw [List.length_nil, add_zero] at hempty
    rw [hdel]
    exact h.update hl ((h.nodup _).filter _) (by omega)
  · rw [hdel]
    exact h

end Invariant

/-! ### Lookups after a put and after a delete -/

section Get

variable {qdict : QDict V}

theorem qdict_get_put (h : qdict.WF) (key k : List UInt8) (value : V) :
    qdict_get (qdict_put_obj qdict key value) k = if k = key then some value else qdict_get qdict k := by
  rw [qdict_get_eq_lookup, qdict_get_eq_lookup]
  by_cases hb : bucketOf k = bucketOf key
  · rcases qdict_put_obj_cases qdict key value (h.nodup _) with ⟨hmem, hput⟩ | ⟨hmem, hput⟩
    · rw [hput]
      dsimp only
      rw [hb, Function.update_self,
        lookup_map_ite (fun e : QDictEntry V => { e with value := value }) (fun _ => rfl)]
      -- the entry found for `k` has key `k`
      cases hf : lookup QDictEntry.key (qdict.table (bucketOf key)) k with
      | none =>
        have hk : k ≠ key := by
          intro hk
          obtain ⟨e, he, hek⟩ := List.mem_map.mp hmem
          exact lookup_eq_none_iff.mp hf (List.mem_map.mpr ⟨e, he, hek.trans hk.symm⟩)
        rw [if_neg hk]
        rfl
      | some e =>
        have hek := key_of_lookup_eq_some hf
        by_cases hk : k = key
        · rw [if_pos hk, Option.map_some, Option.map_some, if_pos (hek.trans hk)]
        · rw [if_neg hk, Option.map_some, if_neg (fun he => hk (hek.symm.trans he))]
    · rw [hput]
      dsimp only
      rw [hb, Function.update_self, lookup_cons]
      by_cases hk : k = key
      · rw [if_pos hk.symm, if_pos hk]
        rfl
      · rw [if_neg (Ne.symm hk), if_neg hk]
  · -- another bucket, which the put leaves alone
    have hk : k ≠ key := fun hk => hb (hk ▸ rfl)
    rw [if_neg hk]
    rcases qdict_put_obj_cases qdict key value (h.nodup _) with ⟨-, hput⟩ | ⟨-, hput⟩ <;>
      rw [hput] <;> dsimp only <;> rw [Function.update_of_ne hb]

theorem qdict_get_del (h : qdict.WF) (key k : List UInt8) :
    qdict_get (qdict_del qdict key) k = if k = key then none else qdict_get qdict k := by
  rcases qdict_del_cases qdict key (h.nodup _) with ⟨-, hdel⟩ | ⟨hmem, hdel⟩
  · rw [hdel, qdict_get_eq_lookup, qdict_get_eq_lookup]
    dsimp only
    by_cases hb : bucketOf k = bucketOf key
    · rw [hb, Function.update_self, lookup_filter]
      by_cases hk : k = key
      · rw [if_pos hk, if_pos hk]
        rfl
      · rw [if_neg hk, if_neg hk]
    · have hk : k ≠ key := fun hk => hb (hk ▸ rfl)
      rw [Function.update_of_ne hb, if_neg hk]
  · -- nothing had the key
    rw [hdel]
    by_cases hk : k = key
    · subst hk
      rw [if_pos rfl, qdict_get_eq_lookup, lookup_eq_none_iff.mpr hmem]
      rfl
    · rw [if_neg hk]

-- An entry is in the table exactly when `qdict_get` gives its value for its key.
theorem mem_entries_iff (h : qdict.WF) (e : QDictEntry V) :
    e ∈ entries qdict ↔ qdict_get qdict e.key = some e.value := by
  rw [mem_entries, qdict_get_eq_lookup, Option.map_eq_some_iff]
  constructor
  · rintro ⟨b, he⟩
    have hb := h.bucket b e he
    subst hb
    exact ⟨e, (lookup_eq_some_iff (h.nodup _)).mpr ⟨he, rfl⟩, rfl⟩
  · rintro ⟨e', he', hv⟩
    obtain ⟨hmem, hk⟩ := (lookup_eq_some_iff (h.nodup _)).mp he'
    refine ⟨bucketOf e.key, ?_⟩
    have he : e' = e := by
      cases e
      cases e'
      simp only at hk hv
      rw [hk, hv]
    rw [he] at hmem
    exact hmem

end Get

/-! ### Any sequence of puts and deletes from `qdict_new` -/

inductive QDictOp (V : Type)
  | put (key : List UInt8) (value : V)
  | del (key : List UInt8)

namespace QDictOp

def key : QDictOp V → List UInt8
  | put k _ => k
  | del k => k

-- What the operation leaves its key mapped to.
def result : QDictOp V → Option V
  | put _ v => some v
  | del _ => none

def apply (qdict : QDict V) : QDictOp V → QDict V
  | put k v => qdict_put_obj qdict k v
  | del k => qdict_del qdict k

end QDictOp

-- The dictionary a sequence of operations builds from `qdict_new`.
def qdictOf (ops : List (QDictOp V)) : QDict V := ops.foldl QDictOp.apply qdict_new

-- The map the operations describe: a key is mapped to the value of its most recent put,
-- unless none was made or a delete of the key came after it.
def latest (ops : List (QDictOp V)) (k : List UInt8) : Option V :=
  (ops.reverse.find? fun op => op.key = k).bind QDictOp.result

-- The keys it maps.
def liveKeys (ops : List (QDictOp V)) : Finset (List UInt8) :=
  (ops.map QDictOp.key).toFinset.filter fun k => (latest ops k).isSome

section Ops

variable (ops : List (QDictOp V))

theorem qdictOf_append (op : QDictOp V) : qdictOf (ops ++ [op]) = QDictOp.apply (qdictOf ops) op := by
  rw [qdictOf, List.foldl_append]
  rfl

theorem latest_append (op : QDictOp V) (k : List UInt8) :
    latest (ops ++ [op]) k = if op.key = k then op.result else latest ops k := by
  unfold latest
  rw [List.reverse_append, List.reverse_singleton, List.singleton_append, List.find?_cons]
  by_cases hk : op.key = k
  · simp [hk]
  · simp [hk]

theorem qdictOf_wf : (qdictOf ops).WF := by
  induction ops using List.reverseRecOn with
  | nil => exact QDict.WF.new
  | append_singleton ops op ih =>
    rw [qdictOf_append]
    cases op with
    | put k v => exact ih.put k v
    | del k => exact ih.del k

-- Each put or delete updates `qdict_get` at its key as the map does.
theorem qdict_get_qdictOf (k : List UInt8) : qdict_get (qdictOf ops) k = latest ops k := by
  induction ops using List.reverseRecOn with
  | nil => rfl
  | append_singleton ops op ih =>
    rw [qdictOf_append, latest_append, ← ih]
    cases op with
    | put key v =>
      rw [QDictOp.apply, QDictOp.key, QDictOp.result, qdict_get_put (qdictOf_wf ops)]
      by_cases hk : k = key
      · rw [if_pos hk, if_pos hk.symm]
      · rw [if_neg hk, if_neg (Ne.symm hk)]
    | del key =>
      rw [QDictOp.apply, QDictOp.key, QDictOp.result, qdict_get_del (qdictOf_wf ops)]
      by_cases hk : k = key
      · rw [if_pos hk, if_pos hk.symm]
      · rw [if_neg hk, if_neg (Ne.symm hk)]

theorem mem_keys_of_latest {k : List UInt8} (h : (latest ops k).isSome) :
    k ∈ ops.map QDictOp.key := by
  unfold latest at h
  cases hf : ops.reverse.find? (fun op => op.key = k) with
  | none =>
    rw [hf] at h
    cases h
  | some op =>
    have hmem := List.mem_reverse.mp (List.mem_of_find?_eq_some hf)
    have hk : op.key = k := by simpa using List.find?_some hf
    exact List.mem_map.mpr ⟨op, hmem, hk⟩

theorem mem_liveKeys_iff (k : List UInt8) : k ∈ liveKeys ops ↔ (latest ops k).isSome := by
  unfold liveKeys
  rw [Finset.mem_filter, List.mem_toFinset]
  exact ⟨fun h => h.2, fun h => ⟨mem_keys_of_latest ops h, h⟩⟩

theorem mem_entries_qdictOf (e : QDictEntry V) :
    e ∈ entries (qdictOf ops) ↔ latest ops e.key = some e.value := by
  rw [mem_entries_iff (qdictOf_wf ops), qdict_get_qdictOf]

-- `size` counts the live keys: the entries are the live bindings, one per key.
theorem qdict_size_qdictOf : qdict_size (qdictOf ops) = (liveKeys ops).card := by
  have h := qdictOf_wf ops
  have hnodup : ((entries (qdictOf ops)).map QDictEntry.key).Nodup :=
    nodup_keys_entriesFrom h.bucket h.nodup _ _
  have hkeys : ((entries (qdictOf ops)).map QDictEntry.key).toFinset = liveKeys ops := by
    ext k
    rw [List.mem_toFinset, mem_liveKeys_iff, List.mem_map]
    constructor
    · rintro ⟨e, he, rfl⟩
      rw [(mem_entries_qdictOf ops e).mp he]
      rfl
    · intro hk
      obtain ⟨v, hv⟩ := Option.isSome_iff_exists.mp hk
      exact ⟨⟨k, v⟩, (mem_entries_qdictOf ops _).mpr hv, rfl⟩
  rw [qdict_size, h.size, ← hkeys, List.toFinset_card_of_nodup hnodup, List.length_map]

end Ops

theorem qdict_refines_map (ops : List (QDictOp V)) :
    let qdict := qdictOf ops
    ((∀ b, ∀ e ∈ qdict.table b, bucketOf e.key = b) ∧
      ((entries qdict).map QDictEntry.key).Nodup) ∧
    ((∀ k, qdict_get qdict k = latest ops k ∧
        qdict_haskey qdict k = if (latest ops k).isSome then 1 else 0) ∧
      qdict_size qdict = (liveKeys ops).card) ∧
    ((∀ k v, latest ops k = some v →
        ∃! n, (walk qdict n).bind (entryAt qdict) = some ⟨k, v⟩) ∧
      (∀ n e, (walk qdict n).bind (entryAt qdict) = some e → latest ops e.key = some e.value) ∧
      walk qdict (qdict_size qdict) = none) := by
  intro qdict
  have h : qdict.WF := qdictOf_wf ops
  have hsize : qdict_size qdict = (entries qdict).length := h.size
  refine ⟨⟨h.bucket, nodup_keys_entriesFrom h.bucket h.nodup _ _⟩,
    ⟨fun k => ⟨qdict_get_qdictOf ops k, ?_⟩, qdict_size_qdictOf ops⟩, ?_, ?_, ?_⟩
  · rw [qdict_haskey_eq_get, qdict_get_qdictOf]
  · -- every live binding is an entry, and the walk meets each entry once
    intro k v hkv
    exact walk_visits_once h ((mem_entries_qdictOf ops ⟨k, v⟩).mpr hkv)
  · -- what the walk meets is an entry, so a live binding
    intro n e hn
    rw [walk_entryAt h] at hn
    exact (mem_entries_qdictOf ops e).mp (List.mem_of_getElem? hn)
  · rw [hsize]
    exact walk_length h

end Qemu.Qobject
