import LibYtdl.Foundation.LinearProbing
import LibYtdl.Foundation.Machine

/-!
# The hash map

`hashmap.c`: an open hash table with linear probing whose size is a power of two. It keeps the
players of an info queue. The hash function of the keys is a parameter; the comparison of the keys
is their equality.

An assertion that fails and a shift that overflows have no value. The keys and the data are not
null.
-/

namespace LibYtdl.Hashmap.Table

open Machine

variable {K V : Type}

/-! ## Hash functions -/

/-- One round of the hash functions. -/
def mix (hash byte : UInt64) : UInt64 :=
  let hash := hash + byte
  let hash := hash + (hash <<< 10)
  hash ^^^ (hash >>> 6)

/-- The end of the hash functions. -/
def finishHash (hash : UInt64) : UInt64 :=
  let hash := hash + (hash <<< 3)
  let hash := hash ^^^ (hash >>> 11)
  hash + (hash <<< 15)

/-- `hashmap_hash_default`. -/
def hashDefault (data : Bytes) : UInt64 :=
  finishHash (data.foldl (fun hash byte ↦ mix hash byte.toUInt64) 0)

/-- `hashmap_hash_string`, for the characters before the zero. A `char` is signed. -/
def hashString (key : Bytes) : UInt64 :=
  finishHash (key.foldl (fun hash char ↦ mix hash char.toInt8.toInt64.toUInt64) 0)

/-- The bytes of a `size_t`. -/
def bytesOf (value : UInt64) : Bytes :=
  (List.range 8).map fun index ↦ (value >>> (8 * index.toUInt64)).toUInt8

/-! ## The table -/

/-- `struct hashmap_base`, apart from its functions. The table has `table_size` slots. -/
structure HashmapBase (K V : Type) where
  tableSizeInit : ℕ
  size : ℕ
  table : List (Option (K × V))

/-- `HASHMAP_SIZE_MIN`. -/
def sizeMin : ℕ := 32

/-- `HASHMAP_SIZE_DEFAULT`. -/
def sizeDefault : ℕ := 128

/-- Subtraction of values of type `size_t`. -/
def subSize (first second : ℕ) : ℕ := (first + 2 ^ 64 - second) % 2 ^ 64

/-- `HASHMAP_SIZE_MOD`. -/
def sizeMod (tableSize val : ℕ) : ℕ := val &&& subSize tableSize 1

/-- `HASHMAP_PROBE_NEXT`. -/
def probeNext (tableSize index : ℕ) : ℕ := sizeMod tableSize (index + 1)

/-- `1 << ((sizeof(unsigned long) << 3) - __builtin_clzl(val))`; the one that is shifted is an
`int`. -/
def shiftOne (val : ℕ) : Option ℕ :=
  let width := val.log2 + 1
  if val = 0 then none else if width < 31 then some (1 <<< width) else none

/-- `hashmap_calc_table_size`. -/
def calcTableSize (tableSizeInit size : ℕ) : Option ℕ :=
  let tableSize := (size + size / 3) % 2 ^ 64
  if tableSize < tableSizeInit then some tableSizeInit else shiftOne (subSize tableSize 1)

/-- The entry in a slot. -/
def slotAt (table : List (Option (K × V))) (index : ℕ) : Option (K × V) := table[index]?.join

section Functions

variable (hash : K → UInt64)

/-- `hashmap_calc_index`. -/
def calcIndex (tableSize : ℕ) (key : K) : ℕ :=
  sizeMod tableSize (hashDefault (bytesOf (hash key))).toNat

variable [DecidableEq K]

/-- The loop of `hashmap_entry_find`. -/
def entryFindLoop (table : List (Option (K × V))) (key : K) (findEmpty : Bool) : ℕ → ℕ → Option ℕ
  | 0, _ => none
  | fuel + 1, index =>
    match slotAt table index with
    | none => if findEmpty then some index else none
    | some entry =>
      if key = entry.1 then some index
      else entryFindLoop table key findEmpty fuel (probeNext table.length index)

/-- `hashmap_entry_find`. -/
def entryFind (table : List (Option (K × V))) (key : K) (findEmpty : Bool) : Option ℕ :=
  entryFindLoop table key findEmpty table.length (calcIndex hash table.length key)

/-- The loop of `hashmap_entry_remove`. -/
def entryRemoveLoop : ℕ → ℕ → ℕ → List (Option (K × V)) → List (Option (K × V))
  | 0, _, removedIndex, table => table.set removedIndex none
  | fuel + 1, index, removedIndex, table =>
    match slotAt table index with
    | none => table.set removedIndex none
    | some entry =>
      let entryIndex := calcIndex hash table.length entry.1
      let next := probeNext table.length index
      if sizeMod table.length (subSize index entryIndex) >
          sizeMod table.length (subSize removedIndex entryIndex) then
        entryRemoveLoop fuel next index (table.set removedIndex (some entry))
      else
        entryRemoveLoop fuel next removedIndex table

/-- `hashmap_entry_remove`. -/
def entryRemove (removedIndex : ℕ) (hb : HashmapBase K V) : HashmapBase K V :=
  let size := hb.size - 1
  { hb with
    size := size
    table := entryRemoveLoop hash size (probeNext hb.table.length removedIndex) removedIndex
      hb.table }

/-- One slot of the old table in `hashmap_rehash`. -/
def rehashSlot (table : List (Option (K × V))) : Option (K × V) → Option (List (Option (K × V)))
  | none => some table
  | some entry => (entryFind hash table entry.1 true).map fun index ↦ table.set index (some entry)

/-- `hashmap_rehash`. -/
def hashmapRehash (alloc : Bool) (tableSize : ℕ) (hb : HashmapBase K V) :
    Option (ℤ × HashmapBase K V) :=
  if tableSize &&& subSize tableSize 1 ≠ 0 ∨ tableSize < hb.size then
    none
  else if !alloc then
    some (-12, hb)
  else
    (hb.table.foldlM (rehashSlot hash) (List.replicate tableSize none)).map fun table ↦
      (0, { hb with table := table })

/-- `hashmap_base_init`. -/
def hashmapBaseInit : HashmapBase K V := ⟨sizeDefault, 0, []⟩

/-- `hashmap_base_reserve`. -/
def hashmapBaseReserve (alloc : Bool) (capacity : ℕ) (hb : HashmapBase K V) :
    Option (ℤ × HashmapBase K V) := do
  let tableSizeInit ← calcTableSize sizeMin capacity
  if hb.table.length < tableSizeInit then
    let (r, next) ←
      hashmapRehash hash alloc tableSizeInit { hb with tableSizeInit := tableSizeInit }
    if r < 0 then some (r, { next with tableSizeInit := hb.tableSizeInit }) else some (r, next)
  else
    some (0, { hb with tableSizeInit := tableSizeInit })

/-- `hashmap_base_put`; `dup` tells whether the key could be copied, if it is to be copied. -/
def hashmapBasePut (alloc dup : Bool) (key : K) (data : V) (hb : HashmapBase K V) :
    Option (ℤ × HashmapBase K V) := do
  let tableSize ← calcTableSize hb.tableSizeInit hb.size
  let (r, hb) ←
    if hb.table.length < tableSize then hashmapRehash hash alloc tableSize hb else some (0, hb)
  match entryFind hash hb.table key true with
  | none => some (if r < 0 then r else -99, hb)
  | some index =>
    if (slotAt hb.table index).isSome then
      some (-17, hb)
    else if !dup then
      some (-12, hb)
    else
      some (0, { hb with size := hb.size + 1, table := hb.table.set index (some (key, data)) })

/-- `hashmap_base_get`. -/
def hashmapBaseGet (hb : HashmapBase K V) (key : K) : Option V :=
  (entryFind hash hb.table key false).bind fun index ↦ (slotAt hb.table index).map Prod.snd

/-- `hashmap_base_remove`. -/
def hashmapBaseRemove (key : K) (hb : HashmapBase K V) : Option V × HashmapBase K V :=
  match entryFind hash hb.table key false with
  | none => (none, hb)
  | some index => ((slotAt hb.table index).map Prod.snd, entryRemove hash index hb)

end Functions

/-- `hashmap_base_clear`. -/
def hashmapBaseClear (hb : HashmapBase K V) : HashmapBase K V :=
  { hb with size := 0, table := List.replicate hb.table.length none }

/-- `hashmap_base_reset`. -/
def hashmapBaseReset (alloc : Bool) (hb : HashmapBase K V) : HashmapBase K V :=
  let tableSize :=
    if hb.table.length ≠ hb.tableSizeInit ∧ alloc then hb.tableSizeInit else hb.table.length
  { hb with size := 0, table := List.replicate tableSize none }

/-! ## Iteration -/

/-- The loop of `hashmap_entry_get_populated`. -/
def getPopulatedLoop (table : List (Option (K × V))) : ℕ → ℕ → Option ℕ
  | 0, _ => none
  | fuel + 1, index =>
    if (slotAt table index).isSome then some index else getPopulatedLoop table fuel (index + 1)

/-- `hashmap_entry_get_populated`. -/
def getPopulated (hb : HashmapBase K V) (index : ℕ) : Option ℕ :=
  if hb.size > 0 then getPopulatedLoop hb.table (hb.table.length - index) index else none

/-- The loop of `hashmap_foreach`, with `hashmap_base_iter_next` behind its body. -/
def foreachLoop (hb : HashmapBase K V) : ℕ → Option ℕ → List (K × V)
  | 0, _ => []
  | _ + 1, none => []
  | fuel + 1, some index =>
    (slotAt hb.table index).toList ++ foreachLoop hb fuel (getPopulated hb (index + 1))

/-- `hashmap_foreach`, from `hashmap_base_iter` on: what its body is run for. -/
def hashmapForeach (hb : HashmapBase K V) : List (K × V) :=
  foreachLoop hb (hb.table.length + 1) (getPopulated hb 0)

end LibYtdl.Hashmap.Table
