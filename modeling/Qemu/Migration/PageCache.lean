import Qemu.Util.Cutils

/-!
The direct-mapped page cache of XBZRLE migration (`page_cache.c`): one slot per
bucket, the bucket chosen by the page number masked to the number of slots.
-/

namespace Qemu.Migration

open Qemu.Util

structure CacheItem where
  it_addr : Nat
  it_age : Nat
  it_data : Option (List UInt8)

-- A slot as `cache_init` leaves it: `it_data = NULL`, `it_age = 0`, `it_addr = -1`.
def CacheItem.empty : CacheItem := ⟨2 ^ 64 - 1, 0, none⟩

structure PageCache where
  page_cache : Nat → CacheItem
  page_size : Nat
  max_num_items : Nat
  max_item_age : Nat
  num_items : Nat

-- `PageCache *cache_init(int64_t num_pages, unsigned int page_size)`; `none` is `NULL`.
def cache_init (num_pages : Int) (page_size : Nat) : Option PageCache :=
  if num_pages ≤ 0 then none
  else
    -- round down to the nearest power of 2
    let num_pages := if is_power_of_2 num_pages.toNat then num_pages else pow2floor num_pages
    some { page_cache := fun _ => CacheItem.empty, page_size := page_size,
           max_num_items := num_pages.toNat, max_item_age := 0, num_items := 0 }

def cache_get_cache_pos (cache : PageCache) (address : Nat) : Nat :=
  (address / cache.page_size) &&& (cache.max_num_items - 1)

def cache_is_cached (cache : PageCache) (addr : Nat) : Bool :=
  (cache.page_cache (cache_get_cache_pos cache addr)).it_addr == addr

-- `get_cached_data`: the page of the slot `addr` maps to, `none` for `NULL`.
def get_cached_data (cache : PageCache) (addr : Nat) : Option (List UInt8) :=
  (cache.page_cache (cache_get_cache_pos cache addr)).it_data

def cache_insert (cache : PageCache) (addr : Nat) (pdata : List UInt8) : PageCache :=
  let pos := cache_get_cache_pos cache addr
  let it := cache.page_cache pos
  { cache with
    num_items := if it.it_data.isNone then cache.num_items + 1 else cache.num_items
    max_item_age := cache.max_item_age + 1
    page_cache := Function.update cache.page_cache pos ⟨addr, cache.max_item_age + 1, some pdata⟩ }

-- `memcpy(get_cached_data(cache, addr), data, TARGET_PAGE_SIZE)`: the slot keeps its
-- address and age and takes new contents.
def cache_write_data (cache : PageCache) (addr : Nat) (data : List UInt8) : PageCache :=
  let pos := cache_get_cache_pos cache addr
  let it := cache.page_cache pos
  { cache with page_cache := Function.update cache.page_cache pos { it with it_data := some data } }

section Lemmas

variable (cache : PageCache) (addr : Nat) (data : List UInt8)

@[simp] theorem cache_insert_page_cache :
    (cache_insert cache addr data).page_cache = Function.update cache.page_cache
      (cache_get_cache_pos cache addr) ⟨addr, cache.max_item_age + 1, some data⟩ := rfl

@[simp] theorem cache_write_data_page_cache :
    (cache_write_data cache addr data).page_cache = Function.update cache.page_cache
      (cache_get_cache_pos cache addr)
      { cache.page_cache (cache_get_cache_pos cache addr) with it_data := some data } := rfl

@[simp] theorem cache_get_cache_pos_insert (b : Nat) :
    cache_get_cache_pos (cache_insert cache addr data) b = cache_get_cache_pos cache b := rfl

@[simp] theorem cache_get_cache_pos_write_data (b : Nat) :
    cache_get_cache_pos (cache_write_data cache addr data) b = cache_get_cache_pos cache b := rfl

theorem cache_is_cached_insert : cache_is_cached (cache_insert cache addr data) addr := by
  simp [cache_is_cached]

theorem get_cached_data_insert : get_cached_data (cache_insert cache addr data) addr = some data := by
  simp [get_cached_data]

-- After an insertion, another address of the same slot is no longer cached.
theorem cache_is_cached_insert_of_ne {b : Nat} (hb : b ≠ addr) :
    cache_is_cached (cache_insert cache addr data) b =
      (cache_get_cache_pos cache b ≠ cache_get_cache_pos cache addr && cache_is_cached cache b) := by
  by_cases hpos : cache_get_cache_pos cache b = cache_get_cache_pos cache addr
  · simp [cache_is_cached, hpos, Ne.symm hb]
  · simp [cache_is_cached, hpos]

theorem get_cached_data_insert_of_ne {b : Nat}
    (hb : cache_get_cache_pos cache b ≠ cache_get_cache_pos cache addr) :
    get_cached_data (cache_insert cache addr data) b = get_cached_data cache b := by
  simp [get_cached_data, Function.update_of_ne hb]

theorem cache_is_cached_write_data (b : Nat) :
    cache_is_cached (cache_write_data cache addr data) b = cache_is_cached cache b := by
  by_cases hpos : cache_get_cache_pos cache b = cache_get_cache_pos cache addr
  · simp [cache_is_cached, hpos]
  · simp [cache_is_cached, Function.update_of_ne hpos]

theorem get_cached_data_write_data : get_cached_data (cache_write_data cache addr data) addr = some data := by
  simp [get_cached_data]

theorem get_cached_data_write_data_of_ne {b : Nat}
    (hb : cache_get_cache_pos cache b ≠ cache_get_cache_pos cache addr) :
    get_cached_data (cache_write_data cache addr data) b = get_cached_data cache b := by
  simp [get_cached_data, Function.update_of_ne hb]

end Lemmas

/-! ### Resizing -/

-- The body of the loop of `cache_resize`: old slot `old_it` moved into `new_cache`. On a
-- collision the slot with the larger `it_age` stays; an old slot whose bucket is still empty
-- goes in through `cache_insert`, which stamps it with the new cache's next age.
def resizeStep (new_cache : PageCache) (old_it : CacheItem) : PageCache :=
  if old_it.it_addr ≠ 2 ^ 64 - 1 then
    let pos := cache_get_cache_pos new_cache old_it.it_addr
    let new_it := new_cache.page_cache pos
    if new_it.it_data.isSome then
      -- keep the MRU page
      if new_it.it_age ≥ old_it.it_age then new_cache
      else { new_cache with page_cache := Function.update new_cache.page_cache pos old_it }
    else
      match old_it.it_data with
      | some pdata => cache_insert new_cache old_it.it_addr pdata
      -- `cache_insert` of a `NULL` page: the bucket is counted and stays without data
      | none =>
          { new_cache with
            num_items := new_cache.num_items + 1
            max_item_age := new_cache.max_item_age + 1
            page_cache := Function.update new_cache.page_cache pos
              ⟨old_it.it_addr, new_cache.max_item_age + 1, none⟩ }
  else new_cache

-- `int64_t cache_resize(PageCache *cache, int64_t new_num_pages)` on an initialised cache: the
-- value it returns and the cache it leaves. The old cache keeps its own `max_item_age`.
def cache_resize (cache : PageCache) (new_num_pages : Int) : Int × PageCache :=
  -- same size
  if pow2floor new_num_pages = cache.max_num_items then (cache.max_num_items, cache)
  else
    match cache_init new_num_pages cache.page_size with
    | none => (-1, cache)
    | some new_cache =>
        -- move all data from old cache
        let new_cache := (List.range cache.max_num_items).foldl
          (fun new_cache i => resizeStep new_cache (cache.page_cache i)) new_cache
        (new_cache.max_num_items,
          { cache with page_cache := new_cache.page_cache,
                       max_num_items := new_cache.max_num_items,
                       num_items := new_cache.num_items })

-- Two buckets of 4 KiB pages: page 0 is inserted, then page 0x1000 into bucket 1, then page
-- 0x2000 into bucket 0 in page 0's place. Resized to one bucket, the cache keeps page 0x1000,
-- of age 2, over page 0x2000, of age 3: page 0x2000 was moved first and stamped with age 1.
theorem cache_resize_keeps_older :
    ∃ cache, (cache_init 2 4096).map (fun c =>
        cache_insert (cache_insert (cache_insert c 0 [0]) 0x1000 [1]) 0x2000 [2]) = some cache ∧
      (cache.page_cache 0).it_addr = 0x2000 ∧ (cache.page_cache 0).it_age = 3 ∧
      (cache.page_cache 1).it_addr = 0x1000 ∧ (cache.page_cache 1).it_age = 2 ∧
      ((cache_resize cache 1).2.page_cache 0).it_addr = 0x1000 := by
  refine ⟨_, rfl, ?_⟩
  decide

end Qemu.Migration
