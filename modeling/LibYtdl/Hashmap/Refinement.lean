import LibYtdl.Hashmap.Table

/-!
# The hash map is a finite map

The functions of `hashmap.c` act on the table as linear probing does on a circle of slots. So every
run of them, whatever the hash function is and whichever allocations fail, is a run of operations on
a map from keys to data.
-/

namespace LibYtdl.Hashmap.Refinement

open LinearProbing Table

variable {K V : Type}

/-! ## Slots of a circle -/

/-- The sizes of tables. -/
def IsTableSize (tableSize : ℕ) : Prop := ∃ width ≤ 30, tableSize = 2 ^ width

theorem IsTableSize.pos {tableSize : ℕ} (h : IsTableSize tableSize) : 0 < tableSize := by
  obtain ⟨width, -, rfl⟩ := h
  exact Nat.two_pow_pos width

theorem IsTableSize.le {tableSize : ℕ} (h : IsTableSize tableSize) : tableSize ≤ 2 ^ 30 := by
  obtain ⟨width, hwidth, rfl⟩ := h
  exact Nat.pow_le_pow_right (by decide) hwidth

theorem subSize_one {tableSize : ℕ} (h : IsTableSize tableSize) :
    subSize tableSize 1 = tableSize - 1 := by
  have hpos := h.pos
  have hle := h.le
  rw [subSize]
  omega

theorem sizeMod_eq {tableSize : ℕ} (h : IsTableSize tableSize) (val : ℕ) :
    sizeMod tableSize val = val % tableSize := by
  rw [sizeMod, subSize_one h]
  obtain ⟨width, -, rfl⟩ := h
  exact Nat.and_two_pow_sub_one_eq_mod val width

theorem sizeMod_lt {tableSize : ℕ} (h : IsTableSize tableSize) (val : ℕ) :
    sizeMod tableSize val < tableSize := by
  rw [sizeMod_eq h]
  exact Nat.mod_lt _ h.pos

theorem cast_sizeMod {tableSize : ℕ} (h : IsTableSize tableSize) (val : ℕ) :
    ((sizeMod tableSize val : ℕ) : ZMod tableSize) = val := by
  rw [sizeMod_eq h, ZMod.natCast_mod]

theorem cast_probeNext {tableSize : ℕ} (h : IsTableSize tableSize) (index : ℕ) :
    ((probeNext tableSize index : ℕ) : ZMod tableSize) = index + 1 := by
  rw [probeNext, cast_sizeMod h, Nat.cast_add, Nat.cast_one]

/-- The masked difference of two indices counts the steps between their slots. -/
theorem sizeMod_subSize {tableSize : ℕ} [NeZero tableSize] (h : IsTableSize tableSize)
    {first second : ℕ} (hfirst : first < tableSize) (hsecond : second < tableSize) :
    sizeMod tableSize (subSize first second) =
      steps (second : ZMod tableSize) (first : ZMod tableSize) := by
  have hle := h.le
  have hzero : ((2 ^ 64 : ℕ) : ZMod tableSize) = 0 := by
    obtain ⟨width, hwidth, rfl⟩ := h
    rw [ZMod.natCast_eq_zero_iff]
    exact pow_dvd_pow 2 (hwidth.trans (by decide))
  have hcast : ((subSize first second : ℕ) : ZMod tableSize) = first - second := by
    have hsplit := congrArg (Nat.cast (R := ZMod tableSize))
      (Nat.div_add_mod (first + 2 ^ 64 - second) (2 ^ 64))
    rw [Nat.cast_add, Nat.cast_mul, hzero, zero_mul, zero_add, Nat.cast_sub (by omega),
      Nat.cast_add, hzero, add_zero] at hsplit
    exact hsplit
  rw [sizeMod_eq h, ← ZMod.val_natCast, hcast, steps]

/-! ## Tables -/

/-- The table as a circle of slots. -/
def circle (tableSize : ℕ) (table : List (Option (K × V))) : Table tableSize K V :=
  fun slot ↦ slotAt table slot.val

/-- The home of a key. -/
def home (hash : K → UInt64) (tableSize : ℕ) (key : K) : ZMod tableSize :=
  (calcIndex hash tableSize key : ℕ)

section Tables

variable {hash : K → UInt64} {tableSize index : ℕ} {table : List (Option (K × V))} {key : K}

theorem circle_cast (h : index < tableSize) :
    circle tableSize table index = slotAt table index := by
  rw [circle, ZMod.val_cast_of_lt h]

theorem calcIndex_lt (hash : K → UInt64) (h : IsTableSize tableSize) (key : K) :
    calcIndex hash tableSize key < tableSize := sizeMod_lt h _

theorem slotAt_set (hindex : index < table.length) (slot : Option (K × V)) (other : ℕ) :
    slotAt (table.set index slot) other = if other = index then slot else slotAt table other := by
  rw [slotAt, slotAt]
  by_cases heq : other = index
  · rw [heq, if_pos rfl, List.getElem?_set_self hindex, Option.join_some]
  · rw [if_neg heq, List.getElem?_set_ne (Ne.symm heq)]

theorem circle_set [NeZero tableSize] (hlength : table.length = tableSize)
    (hindex : index < tableSize)
    (slot : Option (K × V)) :
    circle tableSize (table.set index slot) =
      Function.update (circle tableSize table) (index : ZMod tableSize) slot := by
  funext other
  have heq : other.val = index ↔ other = (index : ZMod tableSize) := by
    rw [← ZMod.val_injective tableSize |>.eq_iff, ZMod.val_cast_of_lt hindex]
  rw [circle, slotAt_set (hlength ▸ hindex), Function.update_apply]
  exact if_congr heq rfl rfl

theorem mem_circle [NeZero tableSize] (hlength : table.length = tableSize) {entry : K × V} :
    (∃ slot, circle tableSize table slot = some entry) ↔ some entry ∈ table := by
  rw [List.mem_iff_getElem?]
  constructor
  · rintro ⟨slot, hslot⟩
    exact ⟨slot.val, Option.join_eq_some_iff.mp hslot⟩
  · rintro ⟨index, hindex⟩
    have hlt : index < tableSize := hlength ▸ (List.getElem?_eq_some_iff.mp hindex).1
    exact ⟨index, by rw [circle_cast hlt, slotAt, hindex, Option.join_some]⟩

section Find

variable [DecidableEq K]

/-- A search that does not look for an empty slot finds none. -/
theorem entryFindLoop_false (fuel index : ℕ) :
    entryFindLoop table key false fuel index =
      (entryFindLoop table key true fuel index).filter fun found ↦ (slotAt table found).isSome := by
  induction fuel generalizing index with
  | zero => rfl
  | succ fuel ih =>
    rw [entryFindLoop, entryFindLoop]
    cases hslot : slotAt table index with
    | none => simp [Option.filter, hslot]
    | some entry =>
      dsimp only
      split
      · simp [Option.filter, hslot]
      · exact ih _

/-- The loop of the search looks at one slot after the other. -/
theorem entryFindLoop_true (h : IsTableSize tableSize) (hlength : table.length = tableSize)
    (fuel : ℕ) (hindex : index < tableSize) :
    entryFindLoop table key true fuel index =
      (find (circle tableSize table) key fuel index).map ZMod.val := by
  induction fuel generalizing index with
  | zero => rfl
  | succ fuel ih =>
    rw [entryFindLoop, find, circle_cast hindex]
    cases slotAt table index with
    | none => simp [ZMod.val_cast_of_lt hindex]
    | some entry =>
      dsimp only
      by_cases hkey : entry.1 = key
      · simp [hkey, ZMod.val_cast_of_lt hindex]
      · have hnext : probeNext tableSize index < tableSize := sizeMod_lt h _
        rw [if_neg (Ne.symm hkey), if_neg hkey, hlength, ih hnext, cast_probeNext h]

theorem entryFind_true (h : IsTableSize tableSize) (hlength : table.length = tableSize) (key : K) :
    entryFind hash table key true =
      (find (circle tableSize table) key tableSize (home hash tableSize key)).map ZMod.val := by
  rw [entryFind, hlength, entryFindLoop_true h hlength _ (calcIndex_lt hash h key)]
  rfl

end Find

/-- The loop of the removal moves the entries back. -/
theorem entryRemoveLoop_eq [NeZero tableSize] (h : IsTableSize tableSize)
    (hlength : table.length = tableSize) (fuel : ℕ) {removedIndex : ℕ} (hindex : index < tableSize)
    (hremoved : removedIndex < tableSize) :
    (entryRemoveLoop hash fuel index removedIndex table).length = tableSize ∧
      circle tableSize (entryRemoveLoop hash fuel index removedIndex table) =
        shift (home hash tableSize) fuel index removedIndex (circle tableSize table) := by
  induction fuel generalizing index removedIndex table with
  | zero => exact ⟨by rw [entryRemoveLoop, List.length_set, hlength], circle_set hlength hremoved _⟩
  | succ fuel ih =>
    have hnext : probeNext tableSize index < tableSize := sizeMod_lt h _
    rw [entryRemoveLoop, shift, circle_cast hindex, ← cast_probeNext h]
    cases slotAt table index with
    | none => exact ⟨by rw [List.length_set, hlength], circle_set hlength hremoved _⟩
    | some entry =>
      have hhome := calcIndex_lt hash h entry.1
      have hcompare : sizeMod tableSize (subSize index (calcIndex hash tableSize entry.1)) >
          sizeMod tableSize (subSize removedIndex (calcIndex hash tableSize entry.1)) ↔
            steps (home hash tableSize entry.1) (removedIndex : ZMod tableSize) <
              steps (home hash tableSize entry.1) (index : ZMod tableSize) := by
        rw [sizeMod_subSize h hindex hhome, sizeMod_subSize h hremoved hhome]
        rfl
      dsimp only
      rw [hlength]
      split
      · next hmove =>
        have hset := circle_set hlength hremoved (some entry)
        rw [if_pos (hcompare.mp hmove), ← hset]
        exact ih (by rw [List.length_set, hlength]) hnext hindex
      · next hkeep =>
        rw [if_neg (mt hcompare.mpr hkeep)]
        exact ih hlength hnext hremoved

end Tables

/-! ## Tables that keep their entries -/

/-- The table of a map: it is not there yet, or its size is a power of two. -/
structure Good (hash : K → UInt64) (tableSize : ℕ) (table : List (Option (K × V))) : Prop where
  length : table.length = tableSize
  isTableSize : tableSize ≠ 0 → IsTableSize tableSize
  valid : Valid (home hash tableSize) (circle tableSize table)

section Good

variable {hash : K → UInt64} {tableSize index : ℕ} {table : List (Option (K × V))} {key : K}
  {value : V}

theorem Good.self (h : Good hash tableSize table) : Good hash table.length table := by
  rw [h.length]
  exact h

theorem slotAt_eq_some {entry : K × V} : slotAt table index = some entry ↔
    table[index]? = some (some entry) :=
  Option.join_eq_some_iff

theorem mem_iff_slotAt {entry : K × V} :
    some entry ∈ table ↔ ∃ index < table.length, slotAt table index = some entry := by
  rw [List.mem_iff_getElem?]
  constructor
  · rintro ⟨index, hindex⟩
    exact ⟨index, (List.getElem?_eq_some_iff.mp hindex).1, Iff.mpr slotAt_eq_some hindex⟩
  · rintro ⟨index, -, hslot⟩
    exact ⟨index, Iff.mp slotAt_eq_some hslot⟩

theorem Good.mem (h : Good hash tableSize table) : some (key, value) ∈ table ↔
    Holds (circle tableSize table) key value := by
  by_cases hzero : tableSize = 0
  · have hnil : table = [] := List.eq_nil_of_length_eq_zero (h.length.trans hzero)
    rw [hnil]
    constructor
    · intro hmem
      exact absurd hmem List.not_mem_nil
    · rintro ⟨slot, hslot⟩
      exact absurd hslot (by simp [circle, slotAt])
  · have : NeZero tableSize := ⟨hzero⟩
    exact (mem_circle h.length).symm

/-- A table of empty slots. -/
theorem good_replicate (hash : K → UInt64) (hsize : tableSize ≠ 0 → IsTableSize tableSize) :
    Good hash tableSize (List.replicate tableSize (none : Option (K × V))) := by
  have hcircle : circle tableSize (List.replicate tableSize (none : Option (K × V))) =
    fun _ ↦ none := by
    funext slot
    rw [circle, slotAt, List.getElem?_replicate]
    split <;> rfl
  exact ⟨List.length_replicate, hsize, hcircle ▸ valid_empty _⟩

variable [DecidableEq K]

theorem entryFind_none_of_zero (h : table.length = 0) (findEmpty : Bool) :
    entryFind hash table key findEmpty = none := by
  rw [entryFind, h, entryFindLoop]

theorem entryFind_false :
    entryFind hash table key false =
      (entryFind hash table key true).filter fun found ↦ (slotAt table found).isSome :=
  entryFindLoop_false _ _

/-- A key that is in the table is found. -/
theorem Good.find_of_mem (h : Good hash tableSize table) (hmem : some (key, value) ∈ table)
    (findEmpty : Bool) :
    ∃ index < tableSize, entryFind hash table key findEmpty = some index ∧
      slotAt table index = some (key, value) := by
  obtain ⟨slot, hslot⟩ := h.mem.mp hmem
  have hsize : tableSize ≠ 0 := by
    rw [← h.length]
    exact List.length_pos_of_mem hmem |>.ne'
  have : NeZero tableSize := ⟨hsize⟩
  have hfound : entryFind hash table key true = some slot.val := by
    rw [entryFind_true (h.isTableSize hsize) h.length, find_of_holds h.valid hslot, Option.map_some]
  refine ⟨slot.val, slot.val_lt, ?_, hslot⟩
  cases findEmpty with
  | true => exact hfound
  | false =>
    have hsome : slotAt table slot.val = some (key, value) := hslot
    rw [entryFind_false, hfound, Option.filter_some, hsome]
    rfl

/-- A key that is not in the table is not found, and an empty slot only if there is one. -/
theorem Good.find_of_notMem (h : Good hash tableSize table)
    (hmem : ∀ value : V, some (key, value) ∉ table) :
    entryFind hash table key false = none ∧
      ((entryFind hash table key true = none ∧ none ∉ table) ∨
        ∃ index < tableSize, entryFind hash table key true = some index ∧
          slotAt table index = none ∧
          ∀ value : V, Good hash tableSize (table.set index (some (key, value)))) := by
  by_cases hzero : tableSize = 0
  · have hnone (findEmpty : Bool) : entryFind hash table key findEmpty = none :=
      entryFind_none_of_zero (h.length.trans hzero) findEmpty
    refine ⟨hnone false, .inl ⟨hnone true, ?_⟩⟩
    rw [List.eq_nil_of_length_eq_zero (h.length.trans hzero)]
    exact List.not_mem_nil
  · have : NeZero tableSize := ⟨hzero⟩
    have hsize := h.isTableSize hzero
    have hkey (value : V) : ¬ Holds (circle tableSize table) key value := mt h.mem.mpr (hmem value)
    obtain ⟨hfind, hfull⟩ | ⟨slot, hfind, hslot, hpath⟩ := find_of_absent hkey
    · have hnone : entryFind hash table key true = none := by
        rw [entryFind_true hsize h.length, hfind, Option.map_none]
      refine ⟨by rw [entryFind_false, hnone, Option.filter_none], .inl ⟨hnone, fun hempty ↦ ?_⟩⟩
      obtain ⟨index, hindex⟩ := List.mem_iff_getElem?.mp hempty
      have hlt : index < tableSize := h.length ▸ (List.getElem?_eq_some_iff.mp hindex).1
      refine hfull index ?_
      rw [circle_cast hlt, slotAt, hindex, Option.join_some]
    · have hfound : entryFind hash table key true = some slot.val := by
        rw [entryFind_true hsize h.length, hfind, Option.map_some]
      have hempty : slotAt table slot.val = none := hslot
      refine ⟨?_, .inr ⟨slot.val, slot.val_lt, hfound, hslot, fun value ↦ ⟨?_, h.isTableSize, ?_⟩⟩⟩
      · rw [entryFind_false, hfound, Option.filter_some, hempty]
        rfl
      · rw [List.length_set, h.length]
      · rw [circle_set h.length slot.val_lt, ZMod.natCast_zmod_val]
        exact h.valid.insert hkey hslot hpath value

end Good

/-- The keys that a table holds. -/
def keys (table : List (Option (K × V))) : Set K := {key | ∃ value, some (key, value) ∈ table}

section Keys

variable {hash : K → UInt64} {tableSize index : ℕ} {table : List (Option (K × V))} {key : K}

theorem keys_finite (table : List (Option (K × V))) : (keys table).Finite := by
  refine (List.finite_toSet (table.reduceOption.map Prod.fst)).subset ?_
  rintro key ⟨value, hmem⟩
  exact List.mem_map_of_mem (f := Prod.fst) (List.reduceOption_mem_iff.mpr hmem)

theorem Good.load_eq [NeZero tableSize] (h : Good hash tableSize table) :
    load (circle tableSize table) = (keys table).ncard := by
  rw [h.valid.distinct.load_eq]
  refine congrArg Set.ncard (Set.ext fun key ↦ exists_congr fun value ↦ ?_)
  exact h.mem.symm

theorem Good.keys_le (h : Good hash tableSize table) : (keys table).ncard ≤ tableSize := by
  by_cases hzero : tableSize = 0
  · have hkeys : keys table = ∅ := by
      rw [List.eq_nil_of_length_eq_zero (h.length.trans hzero), Set.eq_empty_iff_forall_notMem]
      rintro key ⟨value, hmem⟩
      exact absurd hmem List.not_mem_nil
    rw [hkeys, Set.ncard_empty]
    exact Nat.zero_le _
  · have : NeZero tableSize := ⟨hzero⟩
    rw [← h.load_eq]
    exact load_le _

/-- A table without empty slots holds as many keys as it has slots. -/
theorem Good.keys_eq_of_full (h : Good hash tableSize table) (hfull : none ∉ table) :
    (keys table).ncard = tableSize := by
  by_cases hzero : tableSize = 0
  · exact Nat.le_antisymm h.keys_le (hzero ▸ Nat.zero_le _)
  · have : NeZero tableSize := ⟨hzero⟩
    rw [← h.load_eq, load_eq_of_full]
    intro slot hslot
    refine hfull (List.mem_iff_getElem?.mpr ⟨slot.val, ?_⟩)
    have hlt : slot.val < table.length := h.length ▸ slot.val_lt
    rw [circle, slotAt, List.getElem?_eq_getElem hlt, Option.join_some] at hslot
    rw [List.getElem?_eq_getElem hlt, hslot]

/-- No key stands in two slots. -/
theorem Good.index_unique (h : Good hash tableSize table) {first second : ℕ} {value other : V}
    (hfirst : slotAt table first = some (key, value))
    (hsecond : slotAt table second = some (key, other)) : first = second := by
  have hlt {index : ℕ} {entry : K × V} (hslot : slotAt table index = some entry) :
    index < tableSize :=
    h.length ▸ (List.getElem?_eq_some_iff.mp (Iff.mp slotAt_eq_some hslot)).1
  have hfirstAt : circle tableSize table first = some (key, value) := by
    rw [circle_cast (hlt hfirst), hfirst]
  have hsecondAt : circle tableSize table second = some (key, other) := by
    rw [circle_cast (hlt hsecond), hsecond]
  have hval := congrArg ZMod.val (h.valid.distinct hfirstAt hsecondAt)
  rwa [ZMod.val_cast_of_lt (hlt hfirst), ZMod.val_cast_of_lt (hlt hsecond)] at hval

theorem mem_set_of_empty (hindex : index < table.length) (hslot : slotAt table index = none)
    (entry other : K × V) : some other ∈ table.set index (some entry) ↔
      other = entry ∨ some other ∈ table := by
  simp only [mem_iff_slotAt, List.length_set, slotAt_set hindex]
  constructor
  · rintro ⟨place, hplace, hother⟩
    split at hother
    · exact .inl (Option.some.inj hother).symm
    · exact .inr ⟨place, hplace, hother⟩
  · rintro (heq | ⟨place, hplace, hother⟩)
    · exact ⟨index, hindex, by rw [if_pos rfl, heq]⟩
    · refine ⟨place, hplace, ?_⟩
      rw [if_neg, hother]
      intro heq
      rw [heq, hslot] at hother
      exact absurd hother.symm (Option.some_ne_none other)

variable [DecidableEq K]

/-- The loop of the rehash copies the entries of the old table one after the other. -/
theorem Good.rehash_loop {size : ℕ} {old seen rest : List (Option (K × V))}
    (hold : Good hash size old)
    (hsplit : old = seen ++ rest) (hfit : (keys old).ncard ≤ tableSize)
    (h : Good hash tableSize table) (hmem : ∀ entry, some entry ∈ table ↔ some entry ∈ seen) :
    ∃ next, rest.foldlM (rehashSlot hash) table = some next ∧ Good hash tableSize next ∧
      ∀ entry, some entry ∈ next ↔ some entry ∈ old := by
  induction rest generalizing seen table with
  | nil => exact ⟨table, rfl, h, by rwa [hsplit, List.append_nil]⟩
  | cons slot rest ih =>
    have hsplit' : old = (seen ++ [slot]) ++ rest := by
      rw [hsplit, List.append_assoc, List.singleton_append]
    cases slot with
    | none => exact ih hsplit' h fun entry ↦ by simp [hmem entry]
    | some entry =>
      obtain ⟨key, value⟩ := entry
      have hhere : slotAt old seen.length = some (key, value) := by
        rw [slotAt_eq_some, hsplit, List.getElem?_append_right le_rfl, Nat.sub_self,
          List.getElem?_cons_zero]
      have hnew (other : V) : some (key, other) ∉ table := by
        rw [hmem]
        intro hseen
        obtain ⟨index, hindex⟩ := List.mem_iff_getElem?.mp hseen
        have hlt := (List.getElem?_eq_some_iff.mp hindex).1
        have hslot : slotAt old index = some (key, other) := by
          rw [slotAt_eq_some, hsplit, List.getElem?_append_left hlt, hindex]
        exact hlt.ne (hold.index_unique hslot hhere)
      obtain ⟨-, ⟨-, hfull⟩ | ⟨index, hindex, hfound, hempty, hgood⟩⟩ := h.find_of_notMem hnew
      · -- the keys seen so far are fewer than those of the old table
        have hkeys := h.keys_eq_of_full hfull
        have hsubset : insert key (keys table) ⊆ keys old := by
          rintro other (rfl | ⟨data, hdata⟩)
          · exact ⟨value, by rw [hsplit]; simp⟩
          · exact ⟨data, by rw [hsplit]; exact List.mem_append_left _ ((hmem _).mp hdata)⟩
        have hcard := Set.ncard_le_ncard hsubset (keys_finite old)
        have hkey : key ∉ keys table := fun ⟨other, hother⟩ ↦ hnew other hother
        rw [Set.ncard_insert_of_notMem hkey (keys_finite table)] at hcard
        omega
      · rw [List.foldlM_cons, rehashSlot, hfound, Option.map_some, Option.bind_eq_bind,
          Option.bind_some]
        refine ih hsplit' (hgood value) fun other ↦ ?_
        rw [mem_set_of_empty (h.length ▸ hindex) hempty, hmem, List.mem_append, List.mem_singleton,
          Option.some.injEq, or_comm]

end Keys

/-! ## Maps -/

/-- The number of entries up to which the size of a table fits an `int`. -/
def sizeMax : ℕ := 3 * 2 ^ 28

/-- The table that is asked for has room for one more entry. -/
theorem calcTableSize_spec {tableSizeInit size : ℕ} (hinit : IsTableSize tableSizeInit)
    (hmin : sizeMin ≤ tableSizeInit) (hsize : size ≤ sizeMax) :
    ∃ tableSize, calcTableSize tableSizeInit size = some tableSize ∧ IsTableSize tableSize ∧
      size < tableSize ∧ size + size / 3 ≤ tableSize ∧
      (tableSizeInit ≤ size + size / 3 ∨ tableSize = tableSizeInit) := by
  rw [sizeMin] at hmin
  rw [sizeMax] at hsize
  have hmod : (size + size / 3) % 2 ^ 64 = size + size / 3 := Nat.mod_eq_of_lt (by omega)
  rw [calcTableSize, hmod]
  split
  · next hlt => exact ⟨tableSizeInit, rfl, hinit, by omega, hlt.le, .inr rfl⟩
  · next hge =>
    have hsub : subSize (size + size / 3) 1 = size + size / 3 - 1 := by
      rw [subSize]
      omega
    have hne : size + size / 3 - 1 ≠ 0 := by omega
    have hwidth : (size + size / 3 - 1).log2 < 30 := (Nat.log2_lt hne).mpr (by omega)
    have hlow := Nat.lt_log2_self (n := size + size / 3 - 1)
    rw [hsub, shiftOne, if_neg hne, if_pos (by omega), Nat.one_shiftLeft]
    exact ⟨_, rfl, ⟨_, hwidth, rfl⟩, by omega, by omega, .inl (by omega)⟩

/-- The map that a hash map stands for. -/
structure Represents (hash : K → UInt64) (hb : HashmapBase K V) (map : K → Option V) : Prop where
  good : Good hash hb.table.length hb.table
  init_size : IsTableSize hb.tableSizeInit
  min_le : sizeMin ≤ hb.tableSizeInit
  content : ∀ key value, some (key, value) ∈ hb.table ↔ map key = some value
  size_eq : hb.size = {key | map key ≠ none}.ncard

section Represents

variable {hash : K → UInt64} {hb : HashmapBase K V} {map : K → Option V} {key : K}

theorem Represents.keys_eq (h : Represents hash hb map) :
    keys hb.table = {key | map key ≠ none} := by
  refine Set.ext fun key ↦ ?_
  rw [Set.mem_ofPred_eq, Option.ne_none_iff_exists']
  exact exists_congr fun value ↦ h.content key value

theorem Represents.ncard_keys (h : Represents hash hb map) : (keys hb.table).ncard = hb.size := by
  rw [h.keys_eq, h.size_eq]

theorem Represents.notMem (h : Represents hash hb map) (hkey : map key = none) (value : V) :
    some (key, value) ∉ hb.table := by
  rw [h.content, hkey]
  exact (Option.some_ne_none value).symm

theorem Represents.size_le (h : Represents hash hb map) : hb.size ≤ hb.table.length := by
  rw [← h.ncard_keys]
  exact h.good.keys_le

/-- `hashmap_base_init` makes an empty map. -/
theorem represents_init (hash : K → UInt64) :
    Represents hash (hashmapBaseInit : HashmapBase K V) fun _ ↦ none where
  good := (good_replicate hash (absurd rfl) : Good hash 0 (List.replicate 0 none))
  init_size := ⟨7, by decide, rfl⟩
  min_le := Nat.le_of_ble_eq_true rfl
  content := fun _ _ ↦ by simp [hashmapBaseInit]
  size_eq := by simp [hashmapBaseInit]

/-- `hashmap_base_clear` and `hashmap_base_reset` leave a table of empty slots. -/
theorem Represents.empty (h : Represents hash hb map) {tableSize : ℕ}
    (hsize : tableSize = hb.tableSizeInit ∨ tableSize = hb.table.length) :
    Represents (V := V) hash ⟨hb.tableSizeInit, 0, List.replicate tableSize none⟩ fun _ ↦ none where
  good := by
    refine (good_replicate hash fun hne ↦ ?_).self
    obtain rfl | rfl := hsize
    · exact h.init_size
    · exact h.good.isTableSize hne
  init_size := h.init_size
  min_le := h.min_le
  content := fun _ _ ↦ by simp
  size_eq := by simp

variable [DecidableEq K]

/-- `hashmap_rehash` keeps the map, whether the memory for the new table is there or not. -/
theorem Represents.rehash (h : Represents hash hb map) (alloc : Bool) {tableSize : ℕ}
    (hsize : IsTableSize tableSize) (hle : hb.size ≤ tableSize) :
    ∃ r next, hashmapRehash hash alloc tableSize hb = some (r, next) ∧ Represents hash next map ∧
      next.tableSizeInit = hb.tableSizeInit ∧ next.size = hb.size ∧
      (r = 0 ∧ next.table.length = tableSize ∨ r = -12 ∧ alloc = false ∧ next = hb) := by
  have hassert : ¬ (tableSize &&& subSize tableSize 1 ≠ 0 ∨ tableSize < hb.size) := by
    rintro (hpower | hlt)
    · exact hpower ((sizeMod_eq hsize tableSize).trans (Nat.mod_self tableSize))
    · exact absurd hle (Nat.not_le_of_lt hlt)
  rw [hashmapRehash, if_neg hassert]
  cases alloc with
  | false => exact ⟨-12, hb, rfl, h, rfl, rfl, .inr ⟨rfl, rfl, rfl⟩⟩
  | true =>
    obtain ⟨next, hrun, hgood, hmem⟩ := h.good.rehash_loop (List.nil_append _).symm
      (h.ncard_keys ▸ hle) (good_replicate hash fun _ ↦ hsize) fun entry ↦ by simp
    rw [hrun]
    refine ⟨0, _, rfl, ⟨hgood.self, h.init_size, h.min_le, fun key value ↦ ?_, h.size_eq⟩, rfl, rfl,
      .inl ⟨rfl, hgood.length⟩⟩
    rw [hmem, h.content]

/-- `hashmap_base_get` looks up in the map. -/
theorem Represents.get (h : Represents hash hb map) (key : K) :
    hashmapBaseGet hash hb key = map key := by
  rw [hashmapBaseGet]
  cases hkey : map key with
  | none => rw [(h.good.find_of_notMem (h.notMem hkey)).1, Option.bind_none]
  | some value =>
    obtain ⟨index, -, hfound, hslot⟩ := h.good.find_of_mem ((h.content key value).mpr hkey) false
    rw [hfound, Option.bind_some, hslot, Option.map_some]

/-- A new entry in the empty slot that was found. -/
theorem Represents.add (h : Represents hash hb map) (hkey : map key = none) {index : ℕ}
    (hindex : index < hb.table.length) (hslot : slotAt hb.table index = none) (data : V)
    (hgood : Good hash hb.table.length (hb.table.set index (some (key, data)))) :
    Represents hash { hb with size := hb.size + 1, table := hb.table.set index (some (key, data)) }
      (Function.update map key (some data)) where
  good := hgood.self
  init_size := h.init_size
  min_le := h.min_le
  content := fun other value ↦ by
    rw [mem_set_of_empty hindex hslot, Prod.mk.injEq, h.content]
    by_cases heq : other = key
    · rw [heq, Function.update_self, hkey, Option.some.injEq, eq_comm (a := data)]
      simp
    · rw [Function.update_of_ne heq]
      simp [heq]
  size_eq := by
    have hkeys : {other | Function.update map key (some data) other ≠ none} =
        insert key {other | map other ≠ none} := by
      ext other
      by_cases heq : other = key
      · simp [heq]
      · simp [heq]
    rw [hkeys, Set.ncard_insert_of_notMem (by simp [hkey]) (h.keys_eq ▸ keys_finite hb.table),
      h.size_eq]

/-- `hashmap_base_remove` takes the key out of the map. -/
theorem Represents.remove (h : Represents hash hb map) (key : K) :
    (hashmapBaseRemove hash key hb).1 = map key ∧
      Represents hash (hashmapBaseRemove hash key hb).2 (Function.update map key none) := by
  rw [hashmapBaseRemove]
  cases hkey : map key with
  | none =>
    rw [(h.good.find_of_notMem (h.notMem hkey)).1]
    exact ⟨rfl, by rwa [← hkey, Function.update_eq_self]⟩
  | some value =>
    have hmem := (h.content key value).mpr hkey
    obtain ⟨index, hindex, hfound, hslot⟩ := h.good.find_of_mem hmem false
    rw [hfound]
    dsimp only
    rw [hslot, Option.map_some]
    refine ⟨rfl, ?_⟩
    have hne : hb.table.length ≠ 0 := Nat.ne_of_gt (Nat.zero_lt_of_lt hindex)
    have : NeZero hb.table.length := ⟨hne⟩
    have hsize := h.good.isTableSize hne
    have hkeys : {other | Function.update map key none other ≠ none} =
      {other | map other ≠ none} \ {key} := by
      ext other
      by_cases heq : other = key
      · simp [heq]
      · simp [heq]
    have hkeyMem : key ∈ {other | map other ≠ none} := by simp [hkey]
    have hcard : {other | map other ≠ none}.ncard - 1 + 1 = {other | map other ≠ none}.ncard := by
      rw [← Set.ncard_sdiff_singleton_of_mem hkeyMem]
      exact Set.ncard_sdiff_singleton_add_one hkeyMem (h.keys_eq ▸ keys_finite hb.table)
    have hload : hb.size - 1 + 1 = load (circle hb.table.length hb.table) := by
      rw [h.good.load_eq, h.keys_eq, h.size_eq, hcard]
    have hcircle : circle hb.table.length hb.table (index : ZMod hb.table.length) =
      some (key, value) := by
      rw [circle_cast hindex, hslot]
    have hnext : probeNext hb.table.length index < hb.table.length := sizeMod_lt hsize _
    have hloop := @entryRemoveLoop_eq K V hash _ _ _ _ hsize rfl (hb.size - 1) _ hnext hindex
    obtain ⟨hlength, hshift⟩ := hloop
    have hremoved := h.good.valid.remove (hcircle ▸ Option.some_ne_none _) hload
    rw [← cast_probeNext hsize, ← hshift] at hremoved
    have hgood : Good hash hb.table.length (entryRemove hash index hb).table :=
      ⟨hlength, h.good.isTableSize, hremoved.valid⟩
    refine ⟨hgood.self, h.init_size, h.min_le, fun other data ↦ ?_, ?_⟩
    · rw [hgood.mem, Holds]
      refine (hremoved.content (other, data)).trans ?_
      by_cases heq : other = key
      · rw [heq, Function.update_self]
        constructor
        · rintro ⟨slot, hslotNe, hother⟩
          exact absurd (h.good.valid.distinct hother hcircle) hslotNe
        · exact fun hnone ↦ absurd hnone.symm (Option.some_ne_none data)
      · rw [Function.update_of_ne heq, ← h.content, h.good.mem]
        refine exists_congr fun slot ↦ and_iff_right_of_imp fun hother hsame ↦ heq ?_
        rw [hsame, hcircle, Option.some.injEq, Prod.mk.injEq] at hother
        exact hother.1.symm
    · rw [hkeys, Set.ncard_sdiff_singleton_of_mem hkeyMem, ← h.size_eq]
      rfl

end Represents

end LibYtdl.Hashmap.Refinement
