import LibYtdl.Dl.PlayerCache

/-!
# The round trip of the player cache

A cache that is written from the players of one context is read into a new one. The reader has room
for 99 characters of a path, takes an empty path behind another record for the beginning of a longer
one, and does not accept an empty file.
-/

namespace LibYtdl.Dl.CacheRoundTrip

open Machine Encoding InfoQueue Sig.ActionsFile PlayerCache

variable {JSValue : Type}

/-- A player whose script was extracted, under a path that fits `player_url`. -/
structure Player (JSValue : Type) where
  path : Bytes
  actions : SigActions JSValue
  bytecode : Bytes
  path_noNul : 0 ∉ path
  path_fits : path.length ≤ 149
  extracted : Extracted actions bytecode

def Player.entry (player : Player JSValue) : Bytes × SigActions JSValue :=
  (player.path, player.actions)

/-- The players of a `player_map`. -/
structure PlayerMap (JSValue : Type) where
  players : List (Player JSValue)
  nodup : (players.map Player.path).Nodup

/-- What the cache is to keep of an entry. -/
def kept (entry : Bytes × SigActions JSValue) : Bytes × Head × Option Bytes × ℕ :=
  (entry.1, entry.2.saved)

/-- The cache of these players reads back as a map with the same players. -/
def RoundTrips (envs : ℕ → Env JSValue) (playerMap : PlayerMap JSValue) : Prop :=
  ∃ reader, playerCacheLoadFile envs []
      (playerCacheSaveFile (playerMap.players.map Player.entry)) = some (0, reader) ∧
    (reader.playerMap.map kept).Perm ((playerMap.players.map Player.entry).map kept)

/-- The allocations of a load of these players succeed. -/
structure Allocates (env : Env JSValue) (players : List (Player JSValue)) : Prop where
  allocates : env.allocates
  stores : env.stores
  jsMalloc : ∀ player ∈ players, env.jsMalloc player.bytecode.length

theorem Allocates.of_cons {env : Env JSValue} {player : Player JSValue}
    {players : List (Player JSValue)} (h : Allocates env (player :: players)) :
    Allocates env players where
  allocates := h.allocates
  stores := h.stores
  jsMalloc := fun other hother ↦ h.jsMalloc other (List.mem_cons_of_mem _ hother)

/-- What is left of a file once it has been read up to some player: at the beginning all of it,
later all but the character that was read ahead. -/
inductive Remains (players : List (Player JSValue)) : Bytes → Bytes → Prop
  | whole : Remains players [] (playerCacheSaveFile (players.map Player.entry))
  | ahead {byte : UInt8} {file : Bytes}
      (heq : byte :: file = playerCacheSaveFile (players.map Player.entry)) :
      Remains players [byte] file

section Record

variable {player : Player JSValue} {players : List (Player JSValue)} {ahead file : Bytes}

theorem save_cons (player : Player JSValue) (players : List (Player JSValue)) :
    playerCacheSaveFile ((player :: players).map Player.entry) =
      player.path ++ 0 :: (sigActionsSaveFile player.actions ++
        playerCacheSaveFile (players.map Player.entry)) := by
  simp [playerCacheSaveFile, Player.entry]

theorem strdup_path (player : Player JSValue) : strdup (player.path ++ [0]) = player.path := by
  have hpath : ∀ char ∈ player.path, decide (char ≠ 0) = true := by
    intro char hchar
    apply decide_eq_true
    rintro rfl
    exact player.path_noNul hchar
  rw [strdup, List.takeWhile_append_of_pos hpath]
  simp

/-- A path that fits is read whole, unless it is empty and its terminator was read ahead. -/
theorem readPath_player (hremains : Remains (player :: players) ahead file)
    (hpath : player.path.length ≤ 99) (hahead : ahead = [] ∨ player.path ≠ []) :
    readPath (100 - ahead.length) ahead file =
      some (player.path ++ [0], sigActionsSaveFile player.actions ++
        playerCacheSaveFile (players.map Player.entry)) := by
  have hnoNul := player.path_noNul
  cases hremains with
  | whole =>
    rw [save_cons]
    exact readPath_of_fits [] hnoNul (Nat.lt_succ_of_le hpath) _
  | @ahead byte file heq =>
    rw [save_cons] at heq
    generalize player.path = path at heq hpath hahead hnoNul
    cases path with
    | nil => simp at hahead
    | cons char path =>
      obtain ⟨rfl, rfl⟩ := List.cons.inj heq
      exact readPath_of_fits [byte] (fun h ↦ hnoNul (List.mem_cons_of_mem _ h)) hpath _

/-- A longer path is not read. -/
theorem readPath_long (hremains : Remains (player :: players) ahead file)
    (hpath : 99 < player.path.length) :
    readPath (100 - ahead.length) ahead file = none := by
  have hnoNul := player.path_noNul
  cases hremains with
  | whole =>
    rw [save_cons]
    exact readPath_of_too_long [] hnoNul hpath _
  | @ahead byte file heq =>
    rw [save_cons] at heq
    generalize player.path = path at heq hpath hnoNul
    cases path with
    | nil => simp at hpath
    | cons char path =>
      obtain ⟨rfl, rfl⟩ := List.cons.inj heq
      exact readPath_of_too_long [byte] (fun h ↦ hnoNul (List.mem_cons_of_mem _ h))
        (Nat.le_of_lt_succ hpath) _

/-- A player that can be read: what its iteration does. -/
theorem loadRecord_player {envs : ℕ → Env JSValue} {reader : Reader JSValue}
    (hallocates : Allocates (envs reader.records.length) (player :: players))
    (hbytecode : player.bytecode ≠ [])
    (hnew : reader.playerMap.lookup player.path = none) (rest : Bytes) :
    ∃ next, loadRecord envs reader (player.path ++ [0])
        (sigActionsSaveFile player.actions ++ rest) = some (next, rest) ∧
      ∃ actions, next.playerMap = reader.playerMap ++ [(player.path, actions)] ∧
        actions.saved = player.actions.saved := by
  obtain ⟨ret, actions, hload, hsaved⟩ := initAndLoad_save player.extracted hallocates.allocates
    (hallocates.jsMalloc player List.mem_cons_self) hbytecode rest
  let record : Record JSValue :=
    ⟨envs reader.records.length, player.path, sigActionsSaveFile player.actions ++ rest, actions,
      true⟩
  refine ⟨⟨reader.playerMap ++ [(player.path, actions)], reader.records ++ [record]⟩, ?_, actions,
    rfl, hsaved⟩
  simp only [loadRecord, hload, strdup_path, putPlayer, hallocates.stores, if_true, hashmapPut,
    hnew, Option.isSome_none, Bool.false_eq_true, if_false, Option.bind_eq_bind, Option.bind_some,
    Option.pure_def]
  rfl

/-- An empty path behind another record: the path goes on in the head. -/
theorem readPath_empty {byte : UInt8}
    (hremains : Remains (player :: players) [byte] file) (hpath : player.path = []) :
    ∃ chars skipped, strdup chars = [] ∧ 0 < skipped ∧ skipped ≤ 2 ∧
      readPath 99 [byte] file = some (chars, (sigActionsSaveFile player.actions ++
        playerCacheSaveFile (players.map Player.entry)).drop skipped) := by
  cases hremains with
  | ahead heq =>
    obtain ⟨rest, hbytes⟩ := player.actions.head.bytes_first
    have hfirst := Head.firstAction_lt player.extracted.head
    rw [save_cons, hpath, List.nil_append] at heq
    obtain ⟨rfl, rfl⟩ := List.cons.inj heq
    rw [sigActionsSaveFile_eq player.extracted, hbytes, littleEndian_byte hfirst]
    generalize UInt8.ofNat player.actions.head.actions[0].toNat = first
    by_cases hzero : first = 0
    · exact ⟨[0, first], 1, by simp [strdup], by simp, by simp, by simp [readPath_cons, hzero]⟩
    · exact ⟨[0, first, 0], 2, by simp [strdup], by simp, by simp, by simp [readPath_cons, hzero]⟩

/-- The head that is read there is not one of a player. -/
theorem actionsSize_shifted {actions : SigActions JSValue} {bytecode : Bytes}
    (hactions : Extracted actions bytecode) (rest : Bytes) {skipped : ℕ}
    (hpos : 0 < skipped) (hle : skipped ≤ 2) :
    20 <
      (headOf ((sigActionsSaveFile actions ++ rest).drop skipped)).actionsSize.toUInt32.toNat := by
  obtain ⟨front, hfront, hbytes⟩ := actions.head.bytes_last
  have hsize := Head.actionsSize_le hactions.head
  have hdrop : ((sigActionsSaveFile actions ++ rest).drop skipped).drop 160 =
      ([UInt8.ofNat actions.head.actionsSize.toUInt32.toNat, 0, 0, 0] ++
        8 :: (littleEndian 8 bytecode.length ++ (bytecode ++ rest))).drop skipped := by
    rw [List.drop_drop, Nat.add_comm skipped, ← hfront, sigActionsSaveFile_eq hactions, hbytes,
      List.append_assoc, List.drop_length_add_append, littleEndian_byte (by omega)]
  rw [actionsSize_headOf, hdrop]
  have hcases : skipped = 1 ∨ skipped = 2 := by omega
  obtain rfl | rfl := hcases
  · simp
  · have hlength : (UInt8.ofNat bytecode.length).toNat < 256 := UInt8.toNat_lt _
    rw [littleEndian]
    generalize UInt8.ofNat bytecode.length = low at hlength
    simp only [List.cons_append, List.nil_append, List.drop_succ_cons, List.drop_zero,
      List.take_succ_cons, List.take_zero, value_cons, value_nil]
    simp
    omega

end Record

/-! ## The records one after the other -/

section Players

variable {envs : ℕ → Env JSValue} {player : Player JSValue} {players : List (Player JSValue)}
variable {reader final : Reader JSValue} {ahead file : Bytes} {fuel : ℕ}

/-- A player which the reader can find again. -/
def Fits (player : Player JSValue) : Prop :=
  player.path.length ≤ 99 ∧ player.bytecode ≠ []

/-- Players which the reader can find again, from this position on. -/
structure Readable (players : List (Player JSValue)) (ahead : Bytes) : Prop where
  fits : ∀ player ∈ players, Fits player
  later : ∀ player ∈ players.tail, player.path ≠ []
  ahead : ahead ≠ [] → ∀ player ∈ players, player.path ≠ []

theorem readable_cons (player : Player JSValue) (players : List (Player JSValue)) (ahead : Bytes)
    (byte : UInt8) :
    Readable (player :: players) ahead ↔
      Fits player ∧ (ahead = [] ∨ player.path ≠ []) ∧ Readable players [byte] := by
  constructor
  · intro h
    refine ⟨h.fits _ List.mem_cons_self, ?_, ?_⟩
    · by_cases hahead : ahead = []
      · exact .inl hahead
      · exact .inr (h.ahead hahead _ List.mem_cons_self)
    · exact
        { fits := fun other hother ↦ h.fits other (List.mem_cons_of_mem _ hother)
          later := fun other hother ↦ h.later other (List.mem_of_mem_tail hother)
          ahead := fun _ other hother ↦ h.later other hother }
  · rintro ⟨hplayer, hahead, h⟩
    have hlater : ∀ other ∈ players, other.path ≠ [] := h.ahead (List.cons_ne_nil _ _)
    refine ⟨List.forall_mem_cons.mpr ⟨hplayer, h.fits⟩, hlater, ?_⟩
    intro hne
    exact List.forall_mem_cons.mpr ⟨hahead.resolve_left hne, hlater⟩

/-- No two of the players have one path, in the map or still in the file. -/
def Distinct (reader : Reader JSValue) (players : List (Player JSValue)) : Prop :=
  (reader.playerMap.map Prod.fst ++ players.map Player.path).Nodup

theorem lookup_of_distinct (h : Distinct reader (player :: players)) :
    reader.playerMap.lookup player.path = none := by
  rw [List.lookup_eq_none_iff]
  intro entry hentry
  have hne := (List.nodup_append.mp h).2.2 entry.1 (List.mem_map_of_mem hentry) player.path
    (by simp)
  simpa using Ne.symm hne

/-- One player that fits. -/
theorem step_player (hallocates : ∀ count, Allocates (envs count) (player :: players))
    (hremains : Remains (player :: players) ahead file) (hfits : Fits player)
    (hahead : ahead = [] ∨ player.path ≠ []) (hdistinct : Distinct reader (player :: players)) :
    ∃ next actions, next.playerMap = reader.playerMap ++ [(player.path, actions)] ∧
      actions.saved = player.actions.saved ∧
      ((players = [] ∧ ∀ fuel, loadLoop envs (fuel + 1) reader ahead file = some (0, next)) ∨
        ∃ byte rest, Remains players [byte] rest ∧ rest.length < file.length ∧ players ≠ [] ∧
          ∀ fuel, loadLoop envs (fuel + 1) reader ahead file =
            loadLoop envs fuel next [byte] rest) := by
  have hpath := readPath_player hremains hfits.1 hahead
  have hlength := readPath_length_lt hpath
  obtain ⟨next, hload, actions, hmap, hsaved⟩ := loadRecord_player (hallocates _) hfits.2
    (lookup_of_distinct hdistinct) (playerCacheSaveFile (players.map Player.entry))
  refine ⟨next, actions, hmap, hsaved, ?_⟩
  cases players with
  | nil => exact .inl ⟨rfl, fun fuel ↦ loadLoop_last hpath hload fuel⟩
  | cons other players =>
    right
    obtain ⟨byte, rest, hrest⟩ : ∃ byte rest,
        playerCacheSaveFile ((other :: players).map Player.entry) = byte :: rest := by
      rw [save_cons]
      cases other.path with
      | nil => exact ⟨_, _, rfl⟩
      | cons byte path => exact ⟨_, _, rfl⟩
    rw [hrest] at hload hpath hlength
    refine ⟨byte, rest, .ahead hrest.symm, ?_, List.cons_ne_nil _ _,
      fun fuel ↦ loadLoop_next hpath hload fuel⟩
    rw [List.length_append, List.length_cons] at hlength
    omega

/-- The next reader knows one player more. -/
theorem distinct_next {next : Reader JSValue} {actions : SigActions JSValue}
    (hdistinct : Distinct reader (player :: players))
    (hmap : next.playerMap = reader.playerMap ++ [(player.path, actions)]) :
    Distinct next players := by
  rw [Distinct, hmap, List.map_append, List.append_assoc]
  exact hdistinct

theorem kept_next {next : Reader JSValue} {actions : SigActions JSValue}
    (hmap : next.playerMap = reader.playerMap ++ [(player.path, actions)])
    (hsaved : actions.saved = player.actions.saved) :
    next.playerMap.map kept = reader.playerMap.map kept ++ [kept player.entry] := by
  rw [hmap, List.map_append, List.map_singleton, kept, hsaved]
  rfl

/-- Readable players are read. -/
theorem loadLoop_readable (hallocates : ∀ count, Allocates (envs count) players)
    (hremains : Remains players ahead file) (hne : players ≠ [])
    (hreadable : Readable players ahead) (hdistinct : Distinct reader players)
    (hfuel : file.length < fuel) :
    ∃ final, loadLoop envs fuel reader ahead file = some (0, final) ∧
      final.playerMap.map kept =
        reader.playerMap.map kept ++ (players.map Player.entry).map kept := by
  induction players generalizing reader ahead file fuel with
  | nil => exact absurd rfl hne
  | cons player players ih =>
    obtain ⟨fuel, rfl⟩ := Nat.exists_eq_succ_of_ne_zero (Nat.ne_zero_of_lt hfuel)
    obtain ⟨hplayer, hahead, -⟩ := (readable_cons player players ahead 0).mp hreadable
    obtain ⟨next, actions, hmap, hsaved, ⟨rfl, hloop⟩ | ⟨byte, rest, hrest, hlt, hmore, hloop⟩⟩ :=
      step_player hallocates hremains hplayer hahead hdistinct
    · exact ⟨next, hloop fuel, kept_next hmap hsaved⟩
    · have hallocates' : ∀ count, Allocates (envs count) players := fun count ↦
        ⟨(hallocates count).allocates, (hallocates count).stores,
          fun other hother ↦ (hallocates count).jsMalloc other (List.mem_cons_of_mem _ hother)⟩
      obtain ⟨-, -, hlater⟩ := (readable_cons player players ahead byte).mp hreadable
      have hfuel' : rest.length < fuel := by omega
      obtain ⟨final, hfinal, hkept⟩ := ih hallocates' hrest hmore hlater
        (distinct_next hdistinct hmap) hfuel'
      refine ⟨final, (hloop fuel).trans hfinal, ?_⟩
      rw [hkept, kept_next hmap hsaved, List.append_assoc]
      rfl

/-- The sizes in a map are at most `YTDL_MAX_SIG`. -/
def Normal (reader : Reader JSValue) : Prop :=
  ∀ entry ∈ reader.playerMap, entry.2.head.actionsSize.toUInt32.toNat ≤ 20

theorem normal_next {next : Reader JSValue} {actions : SigActions JSValue}
    (hnormal : Normal reader)
    (hmap : next.playerMap = reader.playerMap ++ [(player.path, actions)])
    (hsaved : actions.saved = player.actions.saved) : Normal next := by
  intro entry hentry
  rw [hmap, List.mem_append, List.mem_singleton] at hentry
  obtain hentry | rfl := hentry
  · exact hnormal entry hentry
  · have hhead : actions.head = player.actions.head := congrArg Prod.fst hsaved
    dsimp only
    rw [hhead]
    exact Head.actionsSize_le player.extracted.head

/-- A final map that holds the same entries is normal as well. -/
theorem normal_of_perm (hnormal : Normal reader)
    (hperm : (final.playerMap.map kept).Perm
      (reader.playerMap.map kept ++ (players.map Player.entry).map kept)) : Normal final := by
  intro entry hentry
  have hkept := hperm.subset (List.mem_map_of_mem hentry)
  rw [List.mem_append, List.mem_map, List.mem_map] at hkept
  obtain ⟨other, hother, heq⟩ | ⟨other, hother, heq⟩ := hkept
  · have hhead : other.2.head = entry.2.head := congrArg (fun key ↦ key.2.1) heq
    rw [← hhead]
    exact hnormal other hother
  · have hhead : other.2.head = entry.2.head := congrArg (fun key ↦ key.2.1) heq
    obtain ⟨player, -, rfl⟩ := List.mem_map.mp hother
    rw [← hhead]
    exact Head.actionsSize_le player.extracted.head

/-- An empty path behind another record spoils the map, if its load is harmless at all. -/
theorem not_normal_of_empty {byte : UInt8}
    (hallocates : ∀ count, Allocates (envs count) (player :: players))
    (hremains : Remains (player :: players) [byte] file) (hpath : player.path = [])
    (hdistinct : Distinct reader (player :: players)) {ret : ℤ}
    (h : loadLoop envs fuel reader [byte] file = some (ret, final)) : ¬ Normal final := by
  obtain ⟨chars, skipped, hchars, hpos, hle, hread⟩ := readPath_empty hremains hpath
  have hshifted := actionsSize_shifted player.extracted
    (playerCacheSaveFile (players.map Player.entry)) hpos hle
  have hnew := lookup_of_distinct hdistinct
  obtain ⟨fuel, rfl⟩ : ∃ more, fuel = more + 1 := by
    cases fuel with
    | zero => cases h
    | succ fuel => exact ⟨fuel, rfl⟩
  -- The record is added whatever its load returns, and the map keeps it.
  have hadded : ∀ {next : Reader JSValue} {record : Record JSValue} {body : Bytes},
      Reads envs reader chars body next record →
      body = (sigActionsSaveFile player.actions ++
        playerCacheSaveFile (players.map Player.entry)).drop skipped →
      ∀ more, final.playerMap = next.playerMap ++ more → ¬ Normal final := by
    rintro next record body hreads rfl more hmore hnormal
    obtain ⟨ret, hloads⟩ := hreads.loads
    obtain ⟨-, -, -, hnext⟩ | ⟨-, hknown, -⟩ := hreads.cases
    · have hentry := hnormal (record.path, record.actions) (by simp [hmore, hnext])
      rw [hloads.head] at hentry
      omega
    · rw [hchars, ← hpath] at hknown
      exact hknown (hallocates _).stores hnew
  cases iteration envs reader [byte] file with
  | unended hnone =>
    rw [show 100 - [byte].length = 99 from rfl, hread] at hnone
    cases hnone
  | aborted hsome hbody =>
    rw [loadLoop_aborted hsome hbody] at h
    cases h
  | last hsome hload hreads hafter =>
    rw [loadLoop_last hsome hload] at h
    rw [show 100 - [byte].length = 99 from rfl, hread] at hsome
    obtain ⟨rfl, rfl⟩ := Prod.mk.inj (Option.some.inj hsome)
    obtain ⟨-, rfl⟩ := Prod.mk.inj (Option.some.inj h)
    exact hadded hreads rfl [] (List.append_nil _).symm
  | next hsome hload hreads hafter hshorter =>
    rw [loadLoop_next hsome hload] at h
    rw [show 100 - [byte].length = 99 from rfl, hread] at hsome
    obtain ⟨rfl, rfl⟩ := Prod.mk.inj (Option.some.inj hsome)
    obtain ⟨_, -, hmap⟩ := loadLoop_grows h
    exact hadded hreads rfl _ hmap

/-- Players that are read back are readable. -/
theorem readable_of_loadLoop (hallocates : ∀ count, Allocates (envs count) players)
    (hremains : Remains players ahead file) (hdistinct : Distinct reader players)
    (hnormal : Normal reader) (h : loadLoop envs fuel reader ahead file = some (0, final))
    (hperm : (final.playerMap.map kept).Perm
      (reader.playerMap.map kept ++ (players.map Player.entry).map kept)) :
    Readable players ahead := by
  induction players generalizing reader ahead file fuel with
  | nil => exact ⟨by simp, by simp, by simp⟩
  | cons player players ih =>
    obtain ⟨fuel, rfl⟩ : ∃ more, fuel = more + 1 := by
      cases fuel with
      | zero => cases h
      | succ fuel => exact ⟨fuel, rfl⟩
    have hfinal := normal_of_perm hnormal hperm
    have hlength : player.path.length ≤ 99 := by
      by_contra hlong
      rw [loadLoop_unended (readPath_long hremains (Nat.not_le.mp hlong))] at h
      cases h
    have hahead : ahead = [] ∨ player.path ≠ [] := by
      cases ahead with
      | nil => exact .inl rfl
      | cons byte tail =>
        right
        intro hempty
        obtain rfl : tail = [] := by
          cases hremains
          rfl
        exact not_normal_of_empty hallocates hremains hempty hdistinct h hfinal
    have hbytecode : player.bytecode ≠ [] := by
      intro hempty
      rw [loadLoop_aborted (readPath_player hremains hlength hahead)] at h
      · cases h
      · rw [harmless_save_iff player.extracted]
        exact fun hharmless ↦ hharmless.2 hempty
    refine (readable_cons player players ahead 0).mpr ⟨⟨hlength, hbytecode⟩, hahead, ?_⟩
    obtain ⟨next, actions, hmap, hsaved, ⟨rfl, -⟩ | ⟨byte, rest, hrest, -, -, hloop⟩⟩ :=
      step_player hallocates hremains ⟨hlength, hbytecode⟩ hahead hdistinct
    · exact ⟨by simp, by simp, by simp⟩
    · rw [hloop] at h
      have hlater := ih (fun count ↦ (hallocates count).of_cons) hrest
        (distinct_next hdistinct hmap) (normal_next hnormal hmap hsaved) h (by
          rw [kept_next hmap hsaved, List.append_assoc]
          exact hperm)
      exact ⟨hlater.fits, hlater.later, fun _ ↦ hlater.ahead (List.cons_ne_nil _ _)⟩

end Players

/-! ## The round trip -/

/-- The players of a map whose cache can be read back. -/
def RoundTripping (playerMap : PlayerMap JSValue) : Prop :=
  playerMap.players ≠ [] ∧
    (∀ player ∈ playerMap.players, player.path.length ≤ 99 ∧ player.bytecode ≠ []) ∧
    ∀ player ∈ playerMap.players.tail, player.path ≠ []

/-- A cache is read back if and only if there are players, their paths have at most 99 characters,
only the first one may have none, and no bytecode is empty. -/
theorem roundTrips_iff (envs : ℕ → Env JSValue) (playerMap : PlayerMap JSValue)
    (hallocates : ∀ count, Allocates (envs count) playerMap.players) :
    RoundTrips envs playerMap ↔ RoundTripping playerMap := by
  have hremains : Remains playerMap.players [] _ := .whole
  have hdistinct : Distinct (⟨[], []⟩ : Reader JSValue) playerMap.players := playerMap.nodup
  constructor
  · rintro ⟨reader, hload, hperm⟩
    have hreadable := readable_of_loadLoop hallocates hremains hdistinct
      (fun _ hentry ↦ absurd hentry List.not_mem_nil) hload hperm
    refine ⟨?_, hreadable.fits, hreadable.later⟩
    intro hempty
    rw [hempty] at hload
    cases hload
  · rintro ⟨hne, hfits, hlater⟩
    obtain ⟨final, hload, hkept⟩ := loadLoop_readable hallocates hremains hne
      ⟨hfits, hlater, fun h ↦ absurd rfl h⟩ hdistinct (Nat.lt_succ_self _)
    exact ⟨final, hload, by rw [hkept]; exact List.Perm.refl _⟩

/-- One `reverse`. -/
def reverseHead : Head where
  actions := Vector.ofFn fun index ↦ if index = 0 then 2 else 0
  actionsArg := Vector.replicate 20 0
  actionsSize := 1

theorem reverseHead_extracted : reverseHead.Extracted where
  nonneg := by decide
  le_maxSig := by decide
  known := by
    intro index hindex
    have hsize : reverseHead.actionsSize.toInt = 1 := by decide
    obtain rfl : index = 0 := Fin.ext (by rw [hsize] at hindex; simpa using hindex)
    exact ⟨.reverse, rfl⟩
  unused := by decide

/-- A map of one player, with this number of characters in its path. -/
def onePlayer (length : ℕ) (hlength : length ≤ 149) : PlayerMap Bool where
  players :=
    [{ path := List.replicate length 97
       actions := ⟨reverseHead, some [1, 2], 2, false, false⟩
       bytecode := [1, 2]
       path_noNul := by simp [List.mem_replicate]
       path_fits := by simpa using hlength
       extracted := ⟨reverseHead_extracted, rfl, rfl, by decide⟩ }]
  nodup := List.nodup_singleton _

/-- Allocations succeed and scripts load; a value is whether it is an exception. -/
def working : Env Bool where
  allocates := true
  stores := true
  jsMalloc _ := true
  fresh _ := 0
  undefined := false
  isException := id
  readObject _ := false
  evalFunction _ := false

theorem roundTrips_iff_working :
    RoundTrips (fun _ ↦ working) (onePlayer 48 (by decide)) ↔
      RoundTripping (onePlayer 48 (by decide)) :=
  roundTrips_iff _ _ fun _ ↦ ⟨rfl, rfl, fun _ _ ↦ rfl⟩

/-- A path of 100 characters is saved, and the load of the cache fails. -/
theorem longPath_lost : ¬ RoundTrips (fun _ ↦ working) (onePlayer 100 (by decide)) := by
  rintro ⟨reader, hload, -⟩
  have hremains : Remains (onePlayer 100 (by decide)).players [] _ := .whole
  rw [playerCacheLoadFile, loadLoop_unended (readPath_long hremains (by decide))] at hload
  cases hload

end LibYtdl.Dl.CacheRoundTrip
