import LibYtdl.Dl.InfoQueue
import LibYtdl.Sig.ActionsFile

/-!
# The player cache

`ytdl_dl_player_cache_save_file` writes the players of a context to a file, and
`ytdl_dl_player_cache_load_file` reads them into another context. A record is the path with its
terminator and the signature actions; the reader looks one character ahead behind each record.

The allocators and QuickJS may answer differently for each record. A value `none` of the reader is a
load that is not harmless, as in `Sig.ActionsFile`.
-/

namespace LibYtdl.Dl.PlayerCache

open Machine Encoding InfoQueue Sig.ActionsFile

variable {JSValue : Type}

/-- `ytdl_dl_player_cache_save_file`, with the players in the order in which the map gives them. -/
def playerCacheSaveFile (playerMap : List (Bytes × SigActions JSValue)) : Bytes :=
  playerMap.flatMap fun player ↦ player.1 ++ 0 :: sigActionsSaveFile player.2

/-- The inner loop of `ytdl_dl_player_cache_load_file` with this many of the 100 characters of
`player_path` left: the path with its terminator and the rest of the file. `EOF` is stored as any
other character. -/
def readPath : ℕ → Bytes → Bytes → Option (Bytes × Bytes)
  | 0, _, _ => none
  | slots + 1, playerPath, file =>
    let (c, file) := fgetc file
    let playerPath := playerPath ++ [UInt8.ofInt c]
    if UInt8.ofInt c = 0 then some (playerPath, file) else readPath slots playerPath file

/-- The copy that `strdup` makes. -/
def strdup (chars : Bytes) : Bytes := chars.takeWhile (· ≠ 0)

/-- What one iteration of the outer loop read: the position of the file at the actions, the actions,
and whether the map took them. -/
structure Record (JSValue : Type) where
  env : Env JSValue
  path : Bytes
  body : Bytes
  actions : SigActions JSValue
  added : Bool

/-- The map with the records read so far. -/
structure Reader (JSValue : Type) where
  playerMap : List (Bytes × SigActions JSValue)
  records : List (Record JSValue)

/-- `hashmap_put` with the copy of the path; without memory for either the map stays as it is. -/
def putPlayer (env : Env JSValue) (playerMap : List (Bytes × SigActions JSValue)) (path : Bytes)
    (actions : SigActions JSValue) : ℤ × List (Bytes × SigActions JSValue) :=
  if env.stores then hashmapPut playerMap path actions else (-12, playerMap)

/-- The rest of an iteration, once the path is read. The results of the load and of `hashmap_put`
are not looked at. -/
def loadRecord (envs : ℕ → Env JSValue) (reader : Reader JSValue) (playerPath body : Bytes) :
    Option (Reader JSValue × Bytes) := do
  let env := envs reader.records.length
  let path := strdup playerPath
  let (_, actions, file) ← initAndLoad env body
  let (put, playerMap) := putPlayer env reader.playerMap path actions
  return (⟨playerMap, reader.records ++ [⟨env, path, body, actions, put = 0⟩]⟩, file)

/-- The outer loop of `ytdl_dl_player_cache_load_file`; `ahead` is what the last iteration left at
the beginning of `player_path`. -/
def loadLoop (envs : ℕ → Env JSValue) :
    ℕ → Reader JSValue → Bytes → Bytes → Option (ℤ × Reader JSValue)
  | 0, _, _, _ => none
  | fuel + 1, reader, ahead, file =>
    match readPath (100 - ahead.length) ahead file with
    | none => some (-1, reader)
    | some (playerPath, body) =>
      match loadRecord envs reader playerPath body with
      | none => none
      | some (reader, file) =>
        let (c, file) := fgetc file
        if c = -1 then some (0, reader) else loadLoop envs fuel reader [UInt8.ofInt c] file

/-- `ytdl_dl_player_cache_load_file`. -/
def playerCacheLoadFile (envs : ℕ → Env JSValue) (playerMap : List (Bytes × SigActions JSValue))
    (file : Bytes) : Option (ℤ × Reader JSValue) :=
  loadLoop envs (file.length + 1) ⟨playerMap, []⟩ [] file

/-! ## Reading a path -/

theorem ofInt_eof : UInt8.ofInt (-1) = 255 := by decide

theorem ofInt_byte (byte : UInt8) : UInt8.ofInt byte.toNat = byte := by
  have hlt : (byte.toNat : ℤ) < 2 ^ 8 := by exact_mod_cast byte.toNat_lt
  rw [UInt8.ofInt, Int.emod_eq_of_lt (Int.natCast_nonneg _) hlt, Int.toNat_natCast,
    UInt8.ofNat_toNat]

theorem readPath_nil (slots : ℕ) (playerPath : Bytes) : readPath slots playerPath [] = none := by
  induction slots generalizing playerPath with
  | zero => rfl
  | succ slots ih =>
    rw [readPath, fgetc]
    simpa [ofInt_eof] using ih _

theorem readPath_cons (slots : ℕ) (playerPath : Bytes) (byte : UInt8) (file : Bytes) :
    readPath (slots + 1) playerPath (byte :: file) =
      if byte = 0 then some (playerPath ++ [byte], file)
      else readPath slots (playerPath ++ [byte]) file := by
  simp only [readPath, fgetc, ofInt_byte]

/-- A path is read up to its terminator, if it fits. -/
theorem readPath_of_fits {slots : ℕ} (playerPath : Bytes) {path : Bytes} (hpath : 0 ∉ path)
    (hfits : path.length < slots) (file : Bytes) :
    readPath slots playerPath (path ++ 0 :: file) = some (playerPath ++ path ++ [0], file) := by
  induction path generalizing slots playerPath with
  | nil =>
    obtain ⟨slots, rfl⟩ := Nat.exists_eq_succ_of_ne_zero (Nat.ne_zero_of_lt hfits)
    simp [readPath_cons]
  | cons byte path ih =>
    obtain ⟨slots, rfl⟩ := Nat.exists_eq_succ_of_ne_zero (Nat.ne_zero_of_lt hfits)
    have hbyte : byte ≠ 0 := by
      rintro rfl
      simp at hpath
    rw [List.cons_append, readPath_cons, if_neg hbyte,
      ih (playerPath ++ [byte]) (fun h ↦ hpath (List.mem_cons_of_mem _ h))
        (Nat.lt_of_succ_lt_succ hfits)]
    simp

theorem readPath_of_too_long {slots : ℕ} (playerPath : Bytes) {path : Bytes} (hpath : 0 ∉ path)
    (hlong : slots ≤ path.length) (file : Bytes) :
    readPath slots playerPath (path ++ file) = none := by
  induction path generalizing slots playerPath with
  | nil =>
    obtain rfl : slots = 0 := Nat.le_zero.mp hlong
    rfl
  | cons byte path ih =>
    cases slots with
    | zero => rfl
    | succ slots =>
      have hbyte : byte ≠ 0 := by
        rintro rfl
        simp at hpath
      rw [List.cons_append, readPath_cons, if_neg hbyte]
      exact ih _ (fun h ↦ hpath (List.mem_cons_of_mem _ h)) (Nat.le_of_succ_le_succ hlong)

/-- Whatever is read as a path ends with the first zero of the file. -/
theorem readPath_eq_some {slots : ℕ} {playerPath file chars body : Bytes}
    (h : readPath slots playerPath file = some (chars, body)) :
    ∃ path, file = path ++ 0 :: body ∧ chars = playerPath ++ path ++ [0] := by
  induction slots generalizing playerPath file with
  | zero => cases h
  | succ slots ih =>
    cases file with
    | nil => simp [readPath_nil] at h
    | cons byte file =>
      rw [readPath_cons] at h
      split at h
      · next hbyte =>
        obtain ⟨rfl, rfl⟩ := Prod.mk.inj (Option.some.inj h)
        exact ⟨[], by simp [hbyte], by simp [hbyte]⟩
      · obtain ⟨path, rfl, rfl⟩ := ih h
        exact ⟨byte :: path, rfl, by simp⟩

/-! ## One record -/

section Record

variable {envs : ℕ → Env JSValue} {reader next : Reader JSValue} {chars body file : Bytes}

theorem loadRecord_of_not_harmless (hbody : ¬ Harmless (envs reader.records.length) body)
    (chars : Bytes) : loadRecord envs reader chars body = none := by
  simp [loadRecord, initAndLoad_of_not_harmless hbody]

theorem afterBody_length_le (env : Env JSValue) (body : Bytes) :
    (afterBody env body).length ≤ body.length := by
  rw [afterBody]
  split
  · simp only [afterLength, List.length_drop]
    omega
  · simp only [afterLength, List.length_drop]
    omega

/-- The map takes the player at its end, or stays as it is. -/
inductive Put (env : Env JSValue) (playerMap : List (Bytes × SigActions JSValue)) (path : Bytes)
    (actions : SigActions JSValue) : ℤ → List (Bytes × SigActions JSValue) → Prop
  | added (hstores : env.stores) (hnew : playerMap.lookup path = none) :
      Put env playerMap path actions 0 (playerMap ++ [(path, actions)])
  | refused {put : ℤ} (hput : put ≠ 0) (hknown : env.stores → playerMap.lookup path ≠ none) :
      Put env playerMap path actions put playerMap

theorem putPlayer_put (env : Env JSValue) (playerMap : List (Bytes × SigActions JSValue))
    (path : Bytes) (actions : SigActions JSValue) :
    Put env playerMap path actions (putPlayer env playerMap path actions).1
      (putPlayer env playerMap path actions).2 := by
  by_cases hstores : env.stores
  · cases hlookup : playerMap.lookup path with
    | none =>
      simpa [putPlayer, hstores, hashmapPut, hlookup] using Put.added hstores hlookup
    | some _ =>
      have hput : putPlayer env playerMap path actions = (-17, playerMap) := by
        simp [putPlayer, hstores, hashmapPut, hlookup]
      rw [hput]
      exact .refused (show (-17 : ℤ) ≠ 0 by decide) fun _ ↦ by simp [hlookup]
  · have hput : putPlayer env playerMap path actions = (-12, playerMap) := by
      simp [putPlayer, hstores]
    rw [hput]
    exact .refused (show (-12 : ℤ) ≠ 0 by decide) fun h ↦ absurd h hstores

/-- What one iteration does once it has a path. -/
structure Reads (envs : ℕ → Env JSValue) (reader : Reader JSValue) (chars body : Bytes)
    (next : Reader JSValue) (record : Record JSValue) : Prop where
  harmless : Harmless (envs reader.records.length) body
  env_eq : record.env = envs reader.records.length
  path_eq : record.path = strdup chars
  body_eq : record.body = body
  loads : ∃ ret, Loads record.env body ret record.actions
  records : next.records = reader.records ++ [record]
  playerMap : ∃ put, Put record.env reader.playerMap record.path record.actions put next.playerMap ∧
    (record.added ↔ put = 0)

/-- Whether the record was added, and the map after it. -/
theorem Reads.cases {record : Record JSValue} (h : Reads envs reader chars body next record) :
    (record.added ∧ (envs reader.records.length).stores ∧
        reader.playerMap.lookup (strdup chars) = none ∧
        next.playerMap = reader.playerMap ++ [(record.path, record.actions)]) ∨
      (¬ record.added ∧
        ((envs reader.records.length).stores → reader.playerMap.lookup (strdup chars) ≠ none) ∧
        next.playerMap = reader.playerMap) := by
  obtain ⟨put, hput, hadded⟩ := h.playerMap
  rw [hadded, ← h.env_eq, ← h.path_eq]
  generalize next.playerMap = playerMap at hput
  cases hput with
  | added hstores hnew => exact .inl ⟨rfl, hstores, hnew, rfl⟩
  | refused hne hknown => exact .inr ⟨hne, hknown, rfl⟩

/-- The map grows by the record, if it was added. -/
theorem Reads.playerMap_eq {record : Record JSValue}
    (h : Reads envs reader chars body next record) :
    next.playerMap = reader.playerMap ++
      ([record].filter Record.added).map fun record ↦ (record.path, record.actions) := by
  obtain ⟨hadded, -, -, hmap⟩ | ⟨hadded, -, hmap⟩ := h.cases
  · simp [hmap, hadded]
  · simp [hmap, hadded]

theorem loadRecord_of_harmless (hbody : Harmless (envs reader.records.length) body)
    (chars : Bytes) :
    ∃ next record, loadRecord envs reader chars body =
        some (next, afterBody (envs reader.records.length) body) ∧
      Reads envs reader chars body next record := by
  obtain ⟨ret, actions, hload, hloads⟩ := initAndLoad_of_harmless hbody
  let env := envs reader.records.length
  let put := putPlayer env reader.playerMap (strdup chars) actions
  let record : Record JSValue := ⟨env, strdup chars, body, actions, put.1 = 0⟩
  refine ⟨⟨put.2, reader.records ++ [record]⟩, record, ?_, ?_⟩
  · simp only [loadRecord, hload, Option.bind_eq_bind, Option.bind_some, Option.pure_def]
    rfl
  · exact
      { harmless := hbody
        env_eq := rfl
        path_eq := rfl
        body_eq := rfl
        loads := ⟨ret, hloads⟩
        records := rfl
        playerMap := ⟨put.1, putPlayer_put _ _ _ _, by simp [record]⟩ }

end Record

/-! ## The loop -/

section Loop

variable {envs : ℕ → Env JSValue} {reader next final : Reader JSValue}
variable {chars body file rest ahead : Bytes} {fuel : ℕ} {ret : ℤ}

theorem loadLoop_unended (h : readPath (100 - ahead.length) ahead file = none) (fuel : ℕ)
    (reader : Reader JSValue) : loadLoop envs (fuel + 1) reader ahead file = some (-1, reader) := by
  simp only [loadLoop, h]

theorem loadLoop_aborted (hpath : readPath (100 - ahead.length) ahead file = some (chars, body))
    (hbody : ¬ Harmless (envs reader.records.length) body) (fuel : ℕ) :
    loadLoop envs (fuel + 1) reader ahead file = none := by
  simp only [loadLoop, hpath, loadRecord_of_not_harmless hbody]

theorem loadLoop_last (hpath : readPath (100 - ahead.length) ahead file = some (chars, body))
    (hload : loadRecord envs reader chars body = some (next, [])) (fuel : ℕ) :
    loadLoop envs (fuel + 1) reader ahead file = some (0, next) := by
  simp [loadLoop, hpath, hload, fgetc]

theorem loadLoop_next {byte : UInt8}
    (hpath : readPath (100 - ahead.length) ahead file = some (chars, body))
    (hload : loadRecord envs reader chars body = some (next, byte :: rest)) (fuel : ℕ) :
    loadLoop envs (fuel + 1) reader ahead file = loadLoop envs fuel next [byte] rest := by
  have hbyte : (byte.toNat : ℤ) ≠ -1 := by omega
  simp only [loadLoop, hpath, hload, fgetc, if_neg hbyte, ofInt_byte]

/-- Each iteration leaves less of the file. -/
theorem readPath_length_lt (h : readPath (100 - ahead.length) ahead file = some (chars, body)) :
    body.length < file.length := by
  obtain ⟨path, rfl, rfl⟩ := readPath_eq_some h
  rw [List.length_append, List.length_cons]
  omega

/-- How one iteration ends: the file ends inside of a path, the load is not harmless, or a record
is read and the file ends behind it or goes on. -/
inductive Iteration (envs : ℕ → Env JSValue) (reader : Reader JSValue) (ahead file : Bytes) : Prop
  | unended (hpath : readPath (100 - ahead.length) ahead file = none)
  | aborted {chars body : Bytes}
      (hpath : readPath (100 - ahead.length) ahead file = some (chars, body))
      (hbody : ¬ Harmless (envs reader.records.length) body)
  | last {chars body : Bytes} {next : Reader JSValue} {record : Record JSValue}
      (hpath : readPath (100 - ahead.length) ahead file = some (chars, body))
      (hload : loadRecord envs reader chars body = some (next, []))
      (hreads : Reads envs reader chars body next record)
      (hafter : afterBody (envs reader.records.length) body = [])
  | next {chars body : Bytes} {next : Reader JSValue} {record : Record JSValue} {byte : UInt8}
      {rest : Bytes} (hpath : readPath (100 - ahead.length) ahead file = some (chars, body))
      (hload : loadRecord envs reader chars body = some (next, byte :: rest))
      (hreads : Reads envs reader chars body next record)
      (hafter : afterBody (envs reader.records.length) body = byte :: rest)
      (hshorter : rest.length + 1 < file.length)

theorem iteration (envs : ℕ → Env JSValue) (reader : Reader JSValue) (ahead file : Bytes) :
    Iteration envs reader ahead file := by
  cases hpath : readPath (100 - ahead.length) ahead file with
  | none => exact .unended hpath
  | some read =>
    obtain ⟨chars, body⟩ := read
    by_cases hbody : Harmless (envs reader.records.length) body
    · obtain ⟨next, record, hload, hreads⟩ := loadRecord_of_harmless hbody chars
      have hshort := readPath_length_lt hpath
      have hle := afterBody_length_le (envs reader.records.length) body
      cases hafter : afterBody (envs reader.records.length) body with
      | nil =>
        rw [hafter] at hload
        exact .last hpath hload hreads hafter
      | cons byte rest =>
        rw [hafter] at hload hle
        exact .next hpath hload hreads hafter (by rw [List.length_cons] at hle; omega)
    · exact .aborted hpath hbody

/-- The fuel of `playerCacheLoadFile` is enough: more of it changes nothing. -/
theorem loadLoop_fuel {more : ℕ} (hfuel : file.length < fuel) (hmore : fuel ≤ more)
    (reader : Reader JSValue) (ahead : Bytes) :
    loadLoop envs fuel reader ahead file = loadLoop envs more reader ahead file := by
  induction fuel generalizing more reader ahead file with
  | zero => exact absurd hfuel (Nat.not_lt_zero _)
  | succ fuel ih =>
    obtain ⟨more, rfl⟩ := Nat.exists_eq_succ_of_ne_zero (Nat.ne_zero_of_lt hmore)
    cases iteration envs reader ahead file with
    | unended hpath => rw [loadLoop_unended hpath, loadLoop_unended hpath]
    | aborted hpath hbody => rw [loadLoop_aborted hpath hbody, loadLoop_aborted hpath hbody]
    | last hpath hload => rw [loadLoop_last hpath hload, loadLoop_last hpath hload]
    | next hpath hload _ _ hshorter =>
      rw [loadLoop_next hpath hload, loadLoop_next hpath hload]
      exact ih (by omega) (by omega) _ _

/-- The loop only adds to the map, and only what it recorded. -/
theorem loadLoop_grows (h : loadLoop envs fuel reader ahead file = some (ret, final)) :
    ∃ records, final.records = reader.records ++ records ∧
      final.playerMap = reader.playerMap ++
        (records.filter Record.added).map fun record ↦ (record.path, record.actions) := by
  induction fuel generalizing reader ahead file with
  | zero => cases h
  | succ fuel ih =>
    cases iteration envs reader ahead file with
    | unended hpath =>
      rw [loadLoop_unended hpath] at h
      obtain ⟨-, rfl⟩ := Prod.mk.inj (Option.some.inj h)
      exact ⟨[], by simp, by simp⟩
    | aborted hpath hbody =>
      rw [loadLoop_aborted hpath hbody] at h
      cases h
    | @last _ _ _ record hpath hload hreads hafter =>
      rw [loadLoop_last hpath hload] at h
      obtain ⟨-, rfl⟩ := Prod.mk.inj (Option.some.inj h)
      exact ⟨[record], hreads.records, hreads.playerMap_eq⟩
    | @next _ _ _ record _ _ hpath hload hreads hafter hshorter =>
      rw [loadLoop_next hpath hload] at h
      obtain ⟨records, hrecords, hmap⟩ := ih h
      refine ⟨record :: records, ?_, ?_⟩
      · rw [hrecords, hreads.records, List.append_assoc, List.singleton_append]
      · rw [hmap, hreads.playerMap_eq, List.append_assoc, ← List.map_append,
          ← List.filter_append, List.singleton_append]

end Loop

end LibYtdl.Dl.PlayerCache
