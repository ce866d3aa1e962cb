import LibYtdl.Hashmap.Refinement

/-!
# Runs of the hash map

Every run of operations on a hash map answers what a map from keys to data answers. Memory can run
out at any allocation: then a new entry is refused, but no entry is lost.

A call of `hashmap_reserve` that succeeds promises that no entry up to the capacity has to wait for
memory for a larger table.
-/

namespace LibYtdl.Hashmap.Runs

open LinearProbing Table Refinement

variable {K V : Type}

/-! ## Iteration -/

section Iteration

variable {hash : K → UInt64} {hb : HashmapBase K V} {map : K → Option V}
  {table : List (Option (K × V))}

theorem drop_of_slot {index : ℕ} {slot : Option (K × V)} (h : table[index]? = some slot) :
    (table.drop index).reduceOption = slot.toList ++ (table.drop (index + 1)).reduceOption := by
  obtain ⟨hlt, hslot⟩ := List.getElem?_eq_some_iff.mp h
  rw [List.drop_eq_getElem_cons hlt, hslot]
  cases slot with
  | none => exact List.reduceOption_cons_of_none _
  | some entry => exact List.reduceOption_cons_of_some entry _

/-- What the search for the next populated slot passes over is empty. -/
theorem getPopulatedLoop_spec (table : List (Option (K × V))) (fuel index : ℕ)
    (hfuel : fuel = table.length - index) :
    (getPopulatedLoop table fuel index = none ∧ (table.drop index).reduceOption = []) ∨
      ∃ next entry, index ≤ next ∧ next < table.length ∧
        getPopulatedLoop table fuel index = some next ∧ slotAt table next = some entry ∧
        (table.drop index).reduceOption = entry :: (table.drop (next + 1)).reduceOption := by
  induction fuel generalizing index with
  | zero =>
    refine .inl ⟨rfl, ?_⟩
    rw [List.drop_eq_nil_of_le (by omega), List.reduceOption_nil]
  | succ fuel ih =>
    have hlt : index < table.length := by omega
    have hget := List.getElem?_eq_getElem hlt
    have hslot : slotAt table index = table[index] := by rw [slotAt, hget, Option.join_some]
    have hdrop := drop_of_slot hget
    rw [getPopulatedLoop, hslot, hdrop]
    cases hentry : table[index] with
    | some entry => exact .inr ⟨index, entry, le_rfl, hlt, rfl, hslot.trans hentry, rfl⟩
    | none =>
      obtain ⟨hnone, hrest⟩ | ⟨next, entry, hle, hnext, hfound, hat, hrest⟩ :=
        ih (index + 1) (by omega)
      · exact .inl ⟨hnone, hrest⟩
      · exact .inr ⟨next, entry, by omega, hnext, hfound, hat, hrest⟩

theorem foreachLoop_eq (hsize : 0 < hb.size) (fuel index : ℕ)
    (hfuel : hb.table.length < fuel + index) :
    foreachLoop hb fuel (getPopulated hb index) = (hb.table.drop index).reduceOption := by
  induction fuel generalizing index with
  | zero =>
    rw [foreachLoop, List.drop_eq_nil_of_le (by omega), List.reduceOption_nil]
  | succ fuel ih =>
    rw [getPopulated, if_pos hsize]
    obtain ⟨hnone, hrest⟩ | ⟨next, entry, hle, hnext, hfound, hat, hrest⟩ :=
      getPopulatedLoop_spec hb.table _ index rfl
    · rw [hnone, hrest, foreachLoop]
    · rw [hfound, hrest, foreachLoop, hat, ih (next + 1) (by omega)]
      rfl

/-- The entries of a map, each of them once. -/
structure Lists (map : K → Option V) (entries : List (K × V)) : Prop where
  nodup : (entries.map Prod.fst).Nodup
  mem : ∀ key value, (key, value) ∈ entries ↔ map key = some value

/-- The entries of a table are all of the map, and no key is among them twice. -/
theorem lists_table (h : Represents hash hb map) : Lists map hb.table.reduceOption where
  nodup := by
    rw [List.nodup_iff_pairwise_ne, List.pairwise_map, List.reduceOption, List.pairwise_filterMap,
      List.pairwise_iff_getElem]
    intro first second hfirst hsecond hlt entry hentry other hother heq
    have hat {index : ℕ} {entry : K × V} (hindex : index < hb.table.length)
        (hentry : hb.table[index] = some entry) : slotAt hb.table index = some entry := by
      rw [slotAt_eq_some, List.getElem?_eq_getElem hindex, hentry]
    obtain ⟨key, value⟩ := entry
    obtain ⟨otherKey, otherValue⟩ := other
    obtain rfl : key = otherKey := heq
    exact hlt.ne (h.good.index_unique (hat hfirst hentry) (hat hsecond hother))
  mem := fun key value ↦ by rw [List.reduceOption_mem_iff, h.content]

/-- `hashmap_foreach` visits every entry of the map once. -/
theorem lists_foreach (h : Represents hash hb map) : Lists map (hashmapForeach hb) := by
  obtain hzero | hpos := Nat.eq_zero_or_pos hb.size
  · have hnone : getPopulated hb 0 = none := by
      rw [getPopulated, if_neg (Nat.not_lt_of_le hzero.le)]
    have hempty : map = fun _ ↦ none := by
      have hkeys := (Set.ncard_eq_zero (keys_finite hb.table)).mp (h.ncard_keys.trans hzero)
      funext key
      by_contra hne
      have hmem : key ∈ keys hb.table := h.keys_eq ▸ hne
      rw [hkeys] at hmem
      exact hmem
    rw [hashmapForeach, hnone, foreachLoop, hempty]
    exact ⟨List.nodup_nil, fun key value ↦ by simp⟩
  · rw [hashmapForeach, foreachLoop_eq hpos _ 0 (Nat.lt_succ_self _), List.drop_zero]
    exact lists_table h

end Iteration

/-! ## Operations -/

/-- A call of a function of the hash map, and whether the memory that it asks for is there. -/
inductive Op (K V : Type)
  | put (alloc dup : Bool) (key : K) (data : V)
  | get (key : K)
  | remove (key : K)
  | reserve (alloc : Bool) (capacity : ℕ)
  | clear
  | reset (alloc : Bool)
  | size
  | foreach

/-- What a call gives back. -/
inductive Answer (K V : Type)
  | code (r : ℤ)
  | data (found : Option V)
  | size (size : ℕ)
  | entries (entries : List (K × V))
  | done

section Functions

variable (hash : K → UInt64) [DecidableEq K]

/-- One call. -/
def call (hb : HashmapBase K V) : Op K V → Option (Answer K V × HashmapBase K V)
  | .put alloc dup key data =>
    (hashmapBasePut hash alloc dup key data hb).map fun (r, next) ↦ (.code r, next)
  | .get key => some (.data (hashmapBaseGet hash hb key), hb)
  | .remove key =>
    let (data, next) := hashmapBaseRemove hash key hb
    some (.data data, next)
  | .reserve alloc capacity =>
    (hashmapBaseReserve hash alloc capacity hb).map fun (r, next) ↦ (.code r, next)
  | .clear => some (.done, hashmapBaseClear hb)
  | .reset alloc => some (.done, hashmapBaseReset alloc hb)
  | .size => some (.size hb.size, hb)
  | .foreach => some (.entries (hashmapForeach hb), hb)

/-- A run of calls. -/
def run : HashmapBase K V → List (Op K V) → Option (List (Answer K V) × HashmapBase K V)
  | hb, [] => some ([], hb)
  | hb, op :: ops =>
    (call hash hb op).bind fun (answer, next) ↦
      (run next ops).map fun (answers, last) ↦ (answer :: answers, last)

end Functions

/-! ## The abstract map -/

section Abstract

variable [DecidableEq K]

/-- What a call may answer, for a map from keys to data: an entry that is there is never
overwritten, and a new one is refused only when memory has run out. -/
inductive Meets : (K → Option V) → Op K V → Answer K V → (K → Option V) → Prop
  | put {map : K → Option V} {key : K} (alloc : Bool) (data : V) (hkey : map key = none) :
    Meets map (.put alloc true key data) (.code 0) (Function.update map key (some data))
  | putExists {map : K → Option V} {key : K} (alloc dup : Bool) (data : V) (hkey : map key ≠ none) :
    Meets map (.put alloc dup key data) (.code (-17)) map
  | putNoMemory {map : K → Option V} {key : K} (alloc dup : Bool) (data : V) (hkey : map key = none)
    (hmemory : (alloc && dup) = false) : Meets map (.put alloc dup key data) (.code (-12)) map
  | get (map : K → Option V) (key : K) : Meets map (.get key) (.data (map key)) map
  | remove (map : K → Option V) (key : K) :
    Meets map (.remove key) (.data (map key)) (Function.update map key none)
  | reserve (map : K → Option V) (alloc : Bool) (capacity : ℕ) :
    Meets map (.reserve alloc capacity) (.code 0) map
  | reserveNoMemory (map : K → Option V) (capacity : ℕ) :
    Meets map (.reserve false capacity) (.code (-12)) map
  | clear (map : K → Option V) : Meets map .clear .done fun _ ↦ none
  | reset (map : K → Option V) (alloc : Bool) : Meets map (.reset alloc) .done fun _ ↦ none
  | size (map : K → Option V) : Meets map .size (.size {key | map key ≠ none}.ncard) map
  | foreach {map : K → Option V} {entries : List (K × V)} (h : Lists map entries) :
    Meets map .foreach (.entries entries) map

/-- The answers to a run of calls are those of a map. -/
inductive Explains : (K → Option V) → List (Op K V) → List (Answer K V) → (K → Option V) → Prop
  | nil (map : K → Option V) : Explains map [] [] map
  | cons {map next last : K → Option V} {op : Op K V} {ops : List (Op K V)} {answer : Answer K V}
    {answers : List (Answer K V)} (hop : Meets map op answer next)
      (hops : Explains next ops answers last) :
    Explains map (op :: ops) (answer :: answers) last

end Abstract

/-! ## Refinement -/

/-- A hash map with room for the entries up to a capacity. -/
structure Reserved (capacity : ℕ) (hb : HashmapBase K V) : Prop where
  fits : capacity + capacity / 3 ≤ hb.tableSizeInit
  table : hb.tableSizeInit ≤ hb.table.length

/-- The capacity that is asked for fits the tables. -/
def Op.Fits : Op K V → Prop
  | .reserve _ capacity => capacity ≤ sizeMax
  | _ => True

section Refinement

variable {hash : K → UInt64} {hb : HashmapBase K V} {map : K → Option V} [DecidableEq K]

theorem put_eq {alloc dup : Bool} {key : K} {data : V} {tableSize : ℕ} {r : ℤ}
    {next : HashmapBase K V}
    (hcalc : calcTableSize hb.tableSizeInit hb.size = some tableSize)
    (hrehash : (if hb.table.length < tableSize then hashmapRehash hash alloc tableSize hb
      else some (0, hb)) = some (r, next)) :
    hashmapBasePut hash alloc dup key data hb =
      match entryFind hash next.table key true with
      | none => some (if r < 0 then r else -99, next)
      | some index =>
        if (slotAt next.table index).isSome then some (-17, next)
        else if !dup then some (-12, next)
        else some (0, { next with
          size := next.size + 1
          table := next.table.set index (some (key, data)) }) := by
  rw [hashmapBasePut, hcalc, Option.bind_eq_bind, Option.bind_some]
  split at hrehash
  · next hlt =>
    rw [if_pos hlt, hrehash]
    rfl
  · next hge =>
    obtain ⟨rfl, rfl⟩ := Prod.mk.inj (Option.some.inj hrehash)
    rw [if_neg hge]
    rfl

/-- `hashmap_base_put` answers as the map does. -/
theorem put_meets (h : Represents hash hb map) (hsize : hb.size ≤ sizeMax) (alloc dup : Bool)
    (key : K)
    (data : V) :
    ∃ r next map', hashmapBasePut hash alloc dup key data hb = some (r, next) ∧
      Represents hash next map' ∧ Meets map (.put alloc dup key data) (.code r) map' ∧
      next.size ≤ hb.size + 1 ∧ next.tableSizeInit = hb.tableSizeInit ∧
      hb.table.length ≤ next.table.length := by
  obtain ⟨tableSize, hcalc, hpower, hroom, -, -⟩ := calcTableSize_spec h.init_size h.min_le hsize
  -- after the rehash there is room, or there was no memory for it
  obtain ⟨r, middle, hrehash, hmiddle, hinit, hsame, hgrow, hstate⟩ : ∃ r middle,
      (if hb.table.length < tableSize then hashmapRehash hash alloc tableSize hb
        else some (0, hb)) =
        some (r, middle) ∧ Represents hash middle map ∧ middle.tableSizeInit = hb.tableSizeInit ∧
      middle.size = hb.size ∧ hb.table.length ≤ middle.table.length ∧
      (r = 0 ∧ hb.size < middle.table.length ∨ r = -12 ∧ alloc = false) := by
    split
    · next hsmall =>
      obtain ⟨r, middle, hrun, hmiddle, hinit, hsame, ⟨hr, hlength⟩ | ⟨hr, halloc, rfl⟩⟩ :=
        h.rehash alloc hpower hroom.le
      · exact ⟨r, middle, hrun, hmiddle, hinit, hsame, by omega, .inl ⟨hr, hlength ▸ hroom⟩⟩
      · exact ⟨r, middle, hrun, hmiddle, hinit, hsame, le_rfl, .inr ⟨hr, halloc⟩⟩
    · next hlarge => exact ⟨0, hb, rfl, h, rfl, rfl, le_rfl, .inl ⟨rfl, by omega⟩⟩
  rw [put_eq hcalc hrehash]
  cases hkey : map key with
  | some value =>
    have hmem := (hmiddle.content key value).mpr hkey
    obtain ⟨index, -, hfound, hslot⟩ := hmiddle.good.find_of_mem hmem true
    have hne : map key ≠ none := hkey ▸ Option.some_ne_none value
    refine ⟨-17, middle, map, ?_, hmiddle, .putExists alloc dup data hne, by omega, hinit, hgrow⟩
    simp only [hfound, hslot, Option.isSome_some, if_true]
  | none =>
    obtain ⟨-, ⟨hnone, hfull⟩ | ⟨index, hindex, hfound, hempty, hgood⟩⟩ :=
      hmiddle.good.find_of_notMem (hmiddle.notMem hkey)
    · have hkeys := hmiddle.good.keys_eq_of_full hfull
      rw [hmiddle.ncard_keys] at hkeys
      obtain ⟨hr, halloc⟩ := hstate.resolve_left fun ⟨_, hlt⟩ ↦ by omega
      refine ⟨-12, middle, map, ?_, hmiddle, .putNoMemory alloc dup data hkey (by rw [halloc]; rfl),
        by omega, hinit, hgrow⟩
      rw [hnone, hr]
      rfl
    · cases dup with
      | false =>
        refine ⟨-12, middle, map, ?_, hmiddle,
          .putNoMemory alloc false data hkey (Bool.and_false _),
          by omega, hinit, hgrow⟩
        simp [hfound, hempty]
      | true =>
        refine ⟨0, _, _, ?_, hmiddle.add hkey hindex hempty data (hgood data), .put alloc data hkey,
          (congrArg (· + 1) hsame).le, hinit, ?_⟩
        · simp [hfound, hempty]
        · rwa [List.length_set]

/-- `hashmap_base_reserve` keeps the map, and makes room for the entries up to the capacity. -/
theorem reserve_meets (h : Represents hash hb map) (alloc : Bool) {capacity : ℕ}
    (hcapacity : capacity ≤ sizeMax) :
    ∃ r next, hashmapBaseReserve hash alloc capacity hb = some (r, next) ∧
      Represents hash next map ∧ Meets map (.reserve alloc capacity) (.code r) map ∧
      next.size = hb.size ∧ (r = 0 → Reserved capacity next) := by
  have hminSize : IsTableSize sizeMin := ⟨5, by decide, rfl⟩
  obtain ⟨tableSize, hcalc, hpower, -, hroom, hlarge⟩ :=
    calcTableSize_spec hminSize le_rfl hcapacity
  have hmin : sizeMin ≤ tableSize := by omega
  have hinit : Represents hash { hb with tableSizeInit := tableSize } map :=
    ⟨h.good, hpower, hmin, h.content, h.size_eq⟩
  rw [hashmapBaseReserve, hcalc]
  simp only [Option.bind_eq_bind, Option.bind_some]
  split
  · next hlt =>
    obtain ⟨r, next, hrun, hnext, hinitSize, hsame, ⟨hr, hlength⟩ | ⟨hr, halloc, hkept⟩⟩ :=
      hinit.rehash alloc hpower (h.size_le.trans hlt.le)
    · rw [hrun, hr]
      exact ⟨0, next, rfl, hnext, .reserve map alloc capacity, hsame, fun _ ↦
        ⟨hinitSize ▸ hroom, hinitSize ▸ hlength.ge⟩⟩
    · rw [hrun, hr, halloc, hkept]
      exact ⟨-12, _, rfl, h, .reserveNoMemory map capacity, rfl,
        fun hzero ↦ absurd hzero (by decide)⟩
  · next hge =>
    exact ⟨0, _, rfl, hinit, .reserve map alloc capacity, rfl,
      fun _ ↦ ⟨hroom, Nat.le_of_not_lt hge⟩⟩

theorem remove_size_le (key : K) : (hashmapBaseRemove hash key hb).2.size ≤ hb.size := by
  rw [hashmapBaseRemove]
  cases entryFind hash hb.table key false with
  | none => exact le_rfl
  | some index => exact Nat.sub_le _ _

/-- **One call** answers as the map does. -/
theorem call_meets (h : Represents hash hb map) (hsize : hb.size ≤ sizeMax) {op : Op K V}
    (hop : op.Fits) :
    ∃ answer next map', call hash hb op = some (answer, next) ∧ Represents hash next map' ∧
      Meets map op answer map' ∧ next.size ≤ hb.size + 1 := by
  cases op with
  | put alloc dup key data =>
    obtain ⟨r, next, map', hrun, hnext, hmeets, hle, -⟩ := put_meets h hsize alloc dup key data
    exact ⟨.code r, next, map', by rw [call, hrun, Option.map_some], hnext, hmeets, hle⟩
  | get key => exact ⟨_, hb, map, rfl, h, h.get key ▸ .get map key, Nat.le_succ _⟩
  | remove key =>
    obtain ⟨hdata, hnext⟩ := h.remove key
    exact ⟨_, _, _, rfl, hnext, hdata ▸ .remove map key, (remove_size_le key).trans (Nat.le_succ _)⟩
  | reserve alloc capacity =>
    obtain ⟨r, next, hrun, hnext, hmeets, hsame, -⟩ := reserve_meets h alloc hop
    exact ⟨.code r, next, map, by rw [call, hrun, Option.map_some], hnext, hmeets,
      hsame.le.trans (Nat.le_succ _)⟩
  | clear => exact ⟨.done, _, _, rfl, h.empty (.inr rfl), .clear map, Nat.zero_le _⟩
  | reset alloc =>
    refine ⟨.done, _, _, rfl, h.empty ?_, .reset map alloc, Nat.zero_le _⟩
    split
    · exact .inl rfl
    · exact .inr rfl
  | size => exact ⟨_, hb, map, rfl, h, h.size_eq ▸ .size map, Nat.le_succ _⟩
  | foreach => exact ⟨_, hb, map, rfl, h, .foreach (lists_foreach h), Nat.le_succ _⟩

/-- A run from a hash map that stands for a map. -/
theorem run_meets (h : Represents hash hb map) {ops : List (Op K V)} (hfits : ∀ op ∈ ops, op.Fits)
    (hlength : hb.size + ops.length ≤ sizeMax) :
    ∃ answers last map', run hash hb ops = some (answers, last) ∧ Represents hash last map' ∧
      Explains map ops answers map' ∧ last.size ≤ hb.size + ops.length := by
  induction ops generalizing hb map with
  | nil => exact ⟨[], hb, map, rfl, h, .nil map, le_rfl⟩
  | cons op ops ih =>
    rw [List.length_cons] at hlength
    obtain ⟨answer, next, middle, hcall, hnext, hmeets, hle⟩ :=
      call_meets h (by omega) (hfits op List.mem_cons_self)
    obtain ⟨answers, last, map', hrun, hlast, hexplains, hsize⟩ :=
      ih hnext (fun later hlater ↦ hfits later (List.mem_cons_of_mem _ hlater)) (by omega)
    refine ⟨answer :: answers, last, map', ?_, hlast, .cons hmeets hexplains, ?_⟩
    · simp only [run, hcall, Option.bind_some, hrun, Option.map_some]
    · rw [List.length_cons]
      omega

/-- **Every run** of a hash map from `hashmap_init` on answers as a map from keys to data, with any
hash function and with memory running out anywhere, as long as the sizes of tables fit an `int`. -/
theorem run_explained (hash : K → UInt64) {ops : List (Op K V)} (hfits : ∀ op ∈ ops, op.Fits)
    (hlength : ops.length ≤ sizeMax) :
    ∃ answers last map, run hash hashmapBaseInit ops = some (answers, last) ∧
      Explains (fun _ ↦ none) ops answers map := by
  have hzero : (hashmapBaseInit : HashmapBase K V).size + ops.length ≤ sizeMax := by
    rwa [hashmapBaseInit, Nat.zero_add]
  obtain ⟨answers, last, map, hrun, -, hexplains, -⟩ := run_meets (represents_init hash) hfits hzero
  exact ⟨answers, last, map, hrun, hexplains⟩

end Refinement

theorem run_explained_collision :
    ∃ answers last map, run (fun _ ↦ 0) hashmapBaseInit
        [.put true true 1 10, .put true true 2 20, .remove 1, .get 2, (.foreach : Op ℕ ℕ)] =
          some (answers, last) ∧
      Explains (fun _ ↦ none)
        [.put true true 1 10, .put true true 2 20, .remove 1, .get 2, .foreach] answers map :=
  run_explained (fun _ ↦ 0) (by simp [Op.Fits]) (by decide)

/-! ## Reserving -/

/-- The call reserves room. -/
def Op.Reserves : Op K V → Prop
  | .reserve _ _ => True
  | _ => False

section Reserve

variable {hash : K → UInt64} {hb next : HashmapBase K V} {map : K → Option V} {capacity : ℕ}

/-- Below the capacity the table need not grow. -/
theorem Reserved.calc (h : Reserved capacity hb) (hsize : hb.size < capacity)
    (hfits : capacity ≤ sizeMax) :
    calcTableSize hb.tableSizeInit hb.size = some hb.tableSizeInit := by
  have hroom := h.fits
  rw [sizeMax] at hfits
  have hmod : (hb.size + hb.size / 3) % 2 ^ 64 = hb.size + hb.size / 3 :=
    Nat.mod_eq_of_lt (by omega)
  rw [calcTableSize, hmod, if_pos (by omega)]

theorem entryRemoveLoop_length (fuel index removedIndex : ℕ) (table : List (Option (K × V))) :
    (entryRemoveLoop hash fuel index removedIndex table).length = table.length := by
  induction fuel generalizing index removedIndex table with
  | zero => rw [entryRemoveLoop, List.length_set]
  | succ fuel ih =>
    rw [entryRemoveLoop]
    cases slotAt table index with
    | none => exact List.length_set
    | some entry =>
      dsimp only
      split
      · rw [ih, List.length_set]
      · exact ih _ _ _

variable [DecidableEq K]

/-- The other calls keep the room. -/
theorem Reserved.call (h : Reserved capacity hb) (hrepresents : Represents hash hb map)
    (hsize : hb.size ≤ sizeMax) {op : Op K V} (hop : ¬ op.Reserves) {answer : Answer K V}
    (hcall : Runs.call hash hb op = some (answer, next)) : Reserved capacity next := by
  cases op with
  | put alloc dup key data =>
    obtain ⟨r, other, -, hput, -, -, -, hinit, hgrow⟩ :=
      put_meets hrepresents hsize alloc dup key data
    rw [Runs.call, hput] at hcall
    obtain rfl : other = next := congrArg Prod.snd (Option.some.inj hcall)
    exact ⟨hinit ▸ h.fits, hinit ▸ h.table.trans hgrow⟩
  | remove key =>
    obtain rfl : (hashmapBaseRemove hash key hb).2 = next :=
      congrArg Prod.snd (Option.some.inj hcall)
    rw [hashmapBaseRemove]
    cases entryFind hash hb.table key false with
    | none => exact h
    | some index => exact ⟨h.fits, h.table.trans (entryRemoveLoop_length _ _ _ _).ge⟩
  | reserve alloc capacity => exact absurd trivial hop
  | clear =>
    obtain rfl : hashmapBaseClear hb = next := congrArg Prod.snd (Option.some.inj hcall)
    exact ⟨h.fits, h.table.trans List.length_replicate.ge⟩
  | reset alloc =>
    obtain rfl : hashmapBaseReset alloc hb = next := congrArg Prod.snd (Option.some.inj hcall)
    refine ⟨h.fits, ?_⟩
    simp only [hashmapBaseReset, List.length_replicate]
    split
    · exact le_rfl
    · exact h.table
  | get key | size | foreach =>
    obtain rfl : hb = next := congrArg Prod.snd (Option.some.inj hcall)
    exact h

/-- A run without another reservation keeps the room. -/
theorem Reserved.run (h : Reserved capacity hb) (hrepresents : Represents hash hb map)
    {ops : List (Op K V)} (hfits : ∀ op ∈ ops, op.Fits) (hlength : hb.size + ops.length ≤ sizeMax)
    (hops : ∀ op ∈ ops, ¬ op.Reserves) {answers : List (Answer K V)}
    (hrun : Runs.run hash hb ops = some (answers, next)) : Reserved capacity next := by
  induction ops generalizing hb map answers with
  | nil =>
    obtain rfl : hb = next := congrArg Prod.snd (Option.some.inj hrun)
    exact h
  | cons op ops ih =>
    rw [List.length_cons] at hlength
    obtain ⟨answer, middle, map', hcall, hmiddle, -, hle⟩ :=
      call_meets hrepresents (by omega) (hfits op List.mem_cons_self)
    have hkept := h.call hrepresents (by omega) (hops op List.mem_cons_self) hcall
    rw [Runs.run, hcall, Option.bind_some, Option.map_eq_some_iff] at hrun
    obtain ⟨⟨rest, last⟩, hrest, heq⟩ := hrun
    obtain rfl : last = next := congrArg Prod.snd heq
    exact ih hkept hmiddle (fun later hlater ↦ hfits later (List.mem_cons_of_mem _ hlater))
      (by omega)
      (fun later hlater ↦ hops later (List.mem_cons_of_mem _ hlater)) hrest

/-- **A reservation that succeeds** keeps its promise: whatever the calls before and after it were,
as long as there are fewer entries than the capacity, a new entry is put into the table as it is,
and no memory is needed for a larger one. -/
theorem reserve_suffices (hash : K → UInt64) {before after : List (Op K V)} {capacity : ℕ}
    {alloc : Bool} {answers later : List (Answer K V)} {hb reserved last : HashmapBase K V}
    (hlength : before.length + after.length ≤ sizeMax) (hfits : ∀ op ∈ before, op.Fits)
    (hcapacity : capacity ≤ sizeMax) (hafter : ∀ op ∈ after, ¬ op.Reserves)
    (hbefore : run hash hashmapBaseInit before = some (answers, hb))
    (hreserve : hashmapBaseReserve hash alloc capacity hb = some (0, reserved))
    (hrun : run hash reserved after = some (later, last)) (hroom : last.size < capacity) (key : K)
    (data : V) :
    ∃ r next, hashmapBasePut hash false true key data last = some (r, next) ∧
      r = (if (hashmapBaseGet hash last key).isSome then -17 else 0) ∧
      next.table.length = last.table.length := by
  have hfitsAfter : ∀ op ∈ after, op.Fits := by
    intro op hop
    cases op with
    | reserve alloc capacity => exact absurd trivial (hafter _ hop)
    | _ => trivial
  have hzero : (hashmapBaseInit : HashmapBase K V).size = 0 := rfl
  obtain ⟨_, _, map, hrunBefore, hhb, -, hsize⟩ := run_meets (represents_init hash) hfits (by omega)
  obtain ⟨rfl, rfl⟩ := Prod.mk.inj (Option.some.inj (hbefore.symm.trans hrunBefore))
  obtain ⟨_, _, hrunReserve, hreserved, -, hsame, hroomy⟩ := reserve_meets hhb alloc hcapacity
  obtain ⟨rfl, rfl⟩ := Prod.mk.inj (Option.some.inj (hreserve.symm.trans hrunReserve))
  obtain ⟨_, _, map', hrunAfter, hlast, -, -⟩ := run_meets hreserved hfitsAfter (by omega)
  obtain ⟨rfl, rfl⟩ := Prod.mk.inj (Option.some.inj (hrun.symm.trans hrunAfter))
  have hkept := (hroomy rfl).run hreserved hfitsAfter (by omega) hafter hrun
  have htable := hkept.table
  have hfit := hkept.fits
  rw [put_eq (hkept.calc hroom hcapacity) (if_neg (Nat.not_lt_of_le htable)), hlast.get]
  cases hkey : map' key with
  | some value =>
    obtain ⟨index, -, hfound, hslot⟩ := hlast.good.find_of_mem
      ((hlast.content key value).mpr hkey) true
    exact ⟨-17, last, by simp [hfound, hslot], rfl, rfl⟩
  | none =>
    obtain ⟨-, ⟨-, hfull⟩ | ⟨index, -, hfound, hempty, -⟩⟩ :=
      hlast.good.find_of_notMem (hlast.notMem hkey)
    · have hkeys := hlast.good.keys_eq_of_full hfull
      rw [hlast.ncard_keys] at hkeys
      omega
    · exact ⟨0, { last with
        size := last.size + 1
        table := last.table.set index (some (key, data)) }, by simp [hfound, hempty], rfl,
          List.length_set⟩

theorem reserve_suffices_second :
    ∃ r next, hashmapBasePut (fun _ : ℕ ↦ 0) false true 2 20
        ⟨32, 1, some (1, 10) :: List.replicate 31 none⟩ = some (r, next) ∧
      r = (if (hashmapBaseGet (fun _ : ℕ ↦ 0) (⟨32, 1, some (1, 10) :: List.replicate 31 none⟩ :
        HashmapBase ℕ ℕ) 2).isSome then -17 else 0) ∧
      next.table.length = (some (1, 10) :: List.replicate 31 (none : Option (ℕ × ℕ))).length :=
  @reserve_suffices ℕ ℕ _ (fun _ ↦ 0) [] [.put true true 1 10] 20 true [] [.code 0] hashmapBaseInit
    ⟨32, 0, List.replicate 32 none⟩ ⟨32, 1, some (1, 10) :: List.replicate 31 none⟩ (by decide)
      (by simp)
    (by decide) (by simp [Op.Reserves]) rfl rfl rfl (by decide) 2 20

end Reserve

end LibYtdl.Hashmap.Runs
