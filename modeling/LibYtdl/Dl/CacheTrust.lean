import LibYtdl.Dl.PlayerCache

/-!
# Damaged player caches

Any bytes may be given as a cache. The reader looks at no result of a load, so that a record which
did not load is added to the map like any other. It refuses a file only when it ends inside of a
path.
-/

namespace LibYtdl.Dl.CacheTrust

open Machine InfoQueue Sig.ActionsFile PlayerCache

variable {JSValue : Type}

/-- The record was read completely and successfully. -/
def Good (record : Record JSValue) : Prop := GoodBody record.env record.body

/-- Only good records were added to the map. -/
def Sound (reader : Reader JSValue) : Prop :=
  ∀ record ∈ reader.records, record.added → Good record

/-- All records were good. -/
def Clean (reader : Reader JSValue) : Prop := ∀ record ∈ reader.records, Good record

/-- A load returns, added only good records and reports a bad one. -/
def Distrusts (loaded : Option (ℤ × Reader JSValue)) : Prop :=
  ∃ ret reader, loaded = some (ret, reader) ∧ Sound reader ∧ (¬ Clean reader → ret ≠ 0)

/-- The files on which the reader trusts no bad record: `count` records have been read and `clean`
says that all of them were good, the paths `known` are in the map. A bad record is harmless only
where the map does not take it and the file ends inside of a later path. -/
inductive Trustworthy (envs : ℕ → Env JSValue) :
    ℕ → List Bytes → Bytes → Bytes → Bool → Prop
  | unended {count : ℕ} {known : List Bytes} {ahead file : Bytes} {clean : Bool}
      (hpath : readPath (100 - ahead.length) ahead file = none) :
      Trustworthy envs count known ahead file clean
  | last {count : ℕ} {known : List Bytes} {ahead file chars body : Bytes}
      (hpath : readPath (100 - ahead.length) ahead file = some (chars, body))
      (hgood : GoodBody (envs count) body)
      (hafter : afterBody (envs count) body = []) :
      Trustworthy envs count known ahead file true
  | good {count : ℕ} {known : List Bytes} {ahead file chars body rest : Bytes} {byte : UInt8}
      {clean : Bool}
      (hpath : readPath (100 - ahead.length) ahead file = some (chars, body))
      (hgood : GoodBody (envs count) body)
      (hafter : afterBody (envs count) body = byte :: rest)
      (hrest : Trustworthy envs (count + 1)
        (if (envs count).stores then known ++ [strdup chars] else known) [byte] rest clean) :
      Trustworthy envs count known ahead file clean
  | repeated {count : ℕ} {known : List Bytes} {ahead file chars body rest : Bytes} {byte : UInt8}
      {clean : Bool}
      (hpath : readPath (100 - ahead.length) ahead file = some (chars, body))
      (hbad : ¬ GoodBody (envs count) body)
      (hharmless : Harmless (envs count) body)
      (hknown : (envs count).stores → strdup chars ∈ known)
      (hafter : afterBody (envs count) body = byte :: rest)
      (hrest : Trustworthy envs (count + 1) known [byte] rest false) :
      Trustworthy envs count known ahead file clean

section Inversion

variable {envs : ℕ → Env JSValue} {count : ℕ} {known : List Bytes}
variable {ahead file chars body rest : Bytes} {byte : UInt8} {clean : Bool}

/-- What a trustworthy file is once its next path is read. -/
theorem Trustworthy.of_path (h : Trustworthy envs count known ahead file clean)
    (hpath : readPath (100 - ahead.length) ahead file = some (chars, body)) :
    (GoodBody (envs count) body ∧ afterBody (envs count) body = [] ∧ clean = true) ∨
      (∃ byte rest, GoodBody (envs count) body ∧
        afterBody (envs count) body = byte :: rest ∧
        Trustworthy envs (count + 1)
          (if (envs count).stores then known ++ [strdup chars] else known) [byte] rest clean) ∨
      ∃ byte rest, ¬ GoodBody (envs count) body ∧ Harmless (envs count) body ∧
        ((envs count).stores → strdup chars ∈ known) ∧
        afterBody (envs count) body = byte :: rest ∧
        Trustworthy envs (count + 1) known [byte] rest false := by
  cases h with
  | unended hnone =>
    rw [hpath] at hnone
    cases hnone
  | last hsome hgood hafter =>
    obtain ⟨rfl, rfl⟩ := Prod.mk.inj (Option.some.inj (hpath.symm.trans hsome))
    exact .inl ⟨hgood, hafter, rfl⟩
  | good hsome hgood hafter hrest =>
    obtain ⟨rfl, rfl⟩ := Prod.mk.inj (Option.some.inj (hpath.symm.trans hsome))
    exact .inr (.inl ⟨_, _, hgood, hafter, hrest⟩)
  | repeated hsome hbad hharmless hknown hafter hrest =>
    obtain ⟨rfl, rfl⟩ := Prod.mk.inj (Option.some.inj (hpath.symm.trans hsome))
    exact .inr (.inr ⟨_, _, hbad, hharmless, hknown, hafter, hrest⟩)

theorem Trustworthy.harmless (h : Trustworthy envs count known ahead file clean)
    (hpath : readPath (100 - ahead.length) ahead file = some (chars, body)) :
    Harmless (envs count) body := by
  obtain ⟨hgood, -⟩ | ⟨_, _, hgood, -⟩ | ⟨_, _, -, hharmless, -⟩ := h.of_path hpath
  · exact hgood.toHarmless
  · exact hgood.toHarmless
  · exact hharmless

theorem trustworthy_last_iff
    (hpath : readPath (100 - ahead.length) ahead file = some (chars, body))
    (hafter : afterBody (envs count) body = []) :
    Trustworthy envs count known ahead file clean ↔ GoodBody (envs count) body ∧ clean = true := by
  constructor
  · intro h
    obtain ⟨hgood, -, hclean⟩ | ⟨_, _, -, hmore, -⟩ | ⟨_, _, -, -, -, hmore, -⟩ := h.of_path hpath
    · exact ⟨hgood, hclean⟩
    · cases hafter.symm.trans hmore
    · cases hafter.symm.trans hmore
  · rintro ⟨hgood, rfl⟩
    exact .last hpath hgood hafter

theorem trustworthy_good_iff
    (hpath : readPath (100 - ahead.length) ahead file = some (chars, body))
    (hgood : GoodBody (envs count) body)
    (hafter : afterBody (envs count) body = byte :: rest) :
    Trustworthy envs count known ahead file clean ↔
      Trustworthy envs (count + 1)
        (if (envs count).stores then known ++ [strdup chars] else known) [byte] rest clean := by
  constructor
  · intro h
    obtain ⟨-, hmore, -⟩ | ⟨_, _, -, hmore, hrest⟩ | ⟨_, _, hbad, -⟩ := h.of_path hpath
    · cases hafter.symm.trans hmore
    · obtain ⟨rfl, rfl⟩ := List.cons.inj (hafter.symm.trans hmore)
      exact hrest
    · exact absurd hgood hbad
  · exact .good hpath hgood hafter

theorem trustworthy_bad_iff
    (hpath : readPath (100 - ahead.length) ahead file = some (chars, body))
    (hbad : ¬ GoodBody (envs count) body) (hharmless : Harmless (envs count) body)
    (hafter : afterBody (envs count) body = byte :: rest) :
    Trustworthy envs count known ahead file clean ↔
      ((envs count).stores → strdup chars ∈ known) ∧
        Trustworthy envs (count + 1) known [byte] rest false := by
  constructor
  · intro h
    obtain ⟨hgood, -⟩ | ⟨_, _, hgood, -⟩ | ⟨_, _, -, -, hknown, hmore, hrest⟩ := h.of_path hpath
    · exact absurd hgood hbad
    · exact absurd hgood hbad
    · obtain ⟨rfl, rfl⟩ := List.cons.inj (hafter.symm.trans hmore)
      exact ⟨hknown, hrest⟩
  · rintro ⟨hknown, hrest⟩
    exact .repeated hpath hbad hharmless hknown hafter hrest

end Inversion

/-! ## One record -/

section Record

variable {envs : ℕ → Env JSValue} {reader next final : Reader JSValue} {record : Record JSValue}
variable {known : List Bytes} {chars body : Bytes} {ret : ℤ} {loaded : Option (ℤ × Reader JSValue)}

/-- The paths of a map. -/
def Knows (reader : Reader JSValue) (known : List Bytes) : Prop :=
  ∀ path, path ∈ known ↔ reader.playerMap.lookup path ≠ none

theorem good_iff (h : Reads envs reader chars body next record) :
    Good record ↔ GoodBody (envs reader.records.length) body := by
  rw [Good, h.env_eq, h.body_eq]

/-- A record is added if and only if its path is new and there is memory for it. -/
theorem added_iff (h : Reads envs reader chars body next record) (hknows : Knows reader known) :
    record.added ↔ ¬ ((envs reader.records.length).stores → strdup chars ∈ known) := by
  rw [hknows]
  obtain ⟨hadded, hstores, hnew, -⟩ | ⟨hadded, hknown, -⟩ := h.cases
  · exact ⟨fun _ hknown ↦ hknown hstores hnew, fun _ ↦ hadded⟩
  · exact ⟨fun h ↦ absurd h hadded, fun h ↦ absurd hknown h⟩

theorem knows_refused (h : Reads envs reader chars body next record) (hknows : Knows reader known)
    (hknown : (envs reader.records.length).stores → strdup chars ∈ known) : Knows next known := by
  obtain ⟨hadded, -⟩ | ⟨-, -, hmap⟩ := h.cases
  · exact absurd hknown ((added_iff h hknows).mp hadded)
  · intro path
    rw [hmap]
    exact hknows path

theorem knows_next (h : Reads envs reader chars body next record) (hknows : Knows reader known) :
    Knows next
      (if (envs reader.records.length).stores then known ++ [strdup chars] else known) := by
  obtain ⟨-, hstores, -, hmap⟩ | ⟨-, hknown, hmap⟩ := h.cases
  · intro path
    rw [if_pos hstores, hmap, h.path_eq, List.lookup_append, List.mem_append, hknows]
    cases hlookup : reader.playerMap.lookup path with
    | none =>
      by_cases hpath : path = strdup chars
      · simp [hpath]
      · have hne : (path == strdup chars) = false := beq_false_of_ne hpath
        simp [List.lookup_cons, hpath, hne]
    | some actions => simp
  · intro path
    rw [hmap, ← hknows path]
    split
    · next hstores =>
      have hmem := (hknows _).mpr (hknown hstores)
      constructor
      · intro hpath
        obtain hpath | hpath := List.mem_append.mp hpath
        · exact hpath
        · exact List.mem_singleton.mp hpath ▸ hmem
      · exact List.mem_append_left _
    · rfl

theorem sound_next (h : Reads envs reader chars body next record) (hsound : Sound reader) :
    Sound next ↔ (record.added → Good record) := by
  rw [Sound, h.records]
  simp only [List.forall_mem_append, List.forall_mem_singleton]
  exact and_iff_right hsound

theorem clean_next (h : Reads envs reader chars body next record) :
    Clean next ↔ Clean reader ∧ Good record := by
  rw [Clean, h.records]
  simp only [List.forall_mem_append, List.forall_mem_singleton]
  rfl

/-- A bad record that was added stays. -/
theorem not_distrusts_of_not_sound {fuel : ℕ} {ahead file : Bytes} (hsound : ¬ Sound reader) :
    ¬ Distrusts (loadLoop envs fuel reader ahead file) := by
  rintro ⟨ret, final, hload, hfinal, -⟩
  obtain ⟨records, hrecords, -⟩ := loadLoop_grows hload
  exact hsound fun record hrecord ↦
    hfinal record (hrecords ▸ List.mem_append_left records hrecord)

end Record

/-! ## The file -/

theorem distrusts_iff_trustworthy {envs : ℕ → Env JSValue} {fuel : ℕ} {reader : Reader JSValue}
    {known : List Bytes} {ahead file : Bytes} {clean : Bool} (hfuel : file.length < fuel)
    (hsound : Sound reader) (hclean : clean = true ↔ Clean reader) (hknows : Knows reader known) :
    Distrusts (loadLoop envs fuel reader ahead file) ↔
      Trustworthy envs reader.records.length known ahead file clean := by
  induction fuel generalizing reader known ahead file clean with
  | zero => exact absurd hfuel (Nat.not_lt_zero _)
  | succ fuel ih =>
    cases iteration envs reader ahead file with
    | unended hpath =>
      rw [loadLoop_unended hpath]
      exact iff_of_true ⟨-1, reader, rfl, hsound, fun _ ↦ by decide⟩ (.unended hpath)
    | aborted hpath hbody =>
      rw [loadLoop_aborted hpath hbody]
      refine iff_of_false ?_ fun h ↦ hbody (h.harmless hpath)
      rintro ⟨ret, final, hload, -⟩
      cases hload
    | @last _ _ next _ hpath hload hreads hafter =>
      rw [loadLoop_last hpath hload, trustworthy_last_iff hpath hafter, ← good_iff hreads, hclean,
        and_comm, ← clean_next hreads]
      constructor
      · rintro ⟨ret, final, hfinal, -, hret⟩
        obtain ⟨rfl, rfl⟩ := Prod.mk.inj (Option.some.inj hfinal)
        by_contra hbad
        exact hret hbad rfl
      · intro hnext
        exact ⟨0, next, rfl, fun record hrecord _ ↦ hnext record hrecord, absurd hnext⟩
    | @next chars body next _ _ _ hpath hload hreads hafter hshorter =>
      have hlength : next.records.length = reader.records.length + 1 := by
        rw [hreads.records, List.length_append, List.length_singleton]
      have hsound_next := sound_next hreads hsound
      rw [loadLoop_next hpath hload]
      by_cases hgood : GoodBody (envs reader.records.length) body
      · rw [trustworthy_good_iff hpath hgood hafter, ← hlength]
        have hrecord := (good_iff hreads).mpr hgood
        refine ih (by omega) (hsound_next.mpr fun _ ↦ hrecord) ?_ (knows_next hreads hknows)
        rw [clean_next hreads, hclean]
        exact (and_iff_left hrecord).symm
      · rw [trustworthy_bad_iff hpath hgood hreads.harmless hafter, ← hlength]
        have hrecord := mt (good_iff hreads).mp hgood
        by_cases hknown : (envs reader.records.length).stores → strdup chars ∈ known
        · rw [and_iff_right hknown]
          refine ih (by omega) (hsound_next.mpr fun h ↦ ?_) ?_ (knows_refused hreads hknows hknown)
          · exact absurd hknown ((added_iff hreads hknows).mp h)
          · rw [clean_next hreads]
            simp [hrecord]
        · refine iff_of_false ?_ fun h ↦ hknown h.1
          apply not_distrusts_of_not_sound
          rw [hsound_next]
          exact fun h ↦ hrecord (h ((added_iff hreads hknows).mpr hknown))

/-- A load trusts no bad record if and only if the file is trustworthy from its beginning on. -/
theorem distrusts_iff (envs : ℕ → Env JSValue) (playerMap : List (Bytes × SigActions JSValue))
    (file : Bytes) :
    Distrusts (playerCacheLoadFile envs playerMap file) ↔
      Trustworthy envs 0 (playerMap.map Prod.fst) [] file true := by
  have hknows : Knows ⟨playerMap, []⟩ (playerMap.map Prod.fst) := by
    intro path
    rw [ne_eq, List.lookup_eq_none_iff, List.mem_map, not_forall]
    constructor
    · rintro ⟨entry, hentry, rfl⟩
      exact ⟨entry, fun h ↦ by simpa using h hentry⟩
    · rintro ⟨entry, h⟩
      obtain ⟨hentry, heq⟩ := Classical.not_imp.mp h
      have hpath : path = entry.1 := by simpa using heq
      exact ⟨entry, hentry, hpath.symm⟩
  refine distrusts_iff_trustworthy (Nat.lt_succ_self _) ?_ ?_ hknows
  · exact fun record hrecord ↦ absurd hrecord List.not_mem_nil
  · exact iff_of_true rfl fun record hrecord ↦ absurd hrecord List.not_mem_nil

/-- Allocations succeed and no script loads; a value is whether it is an exception. -/
def failing : Env Bool where
  allocates := true
  stores := true
  jsMalloc _ := true
  fresh _ := 0
  undefined := false
  isException := id
  readObject _ := true
  evalFunction _ := true

/-- A record without actions, cut off in its bytecode of two bytes. -/
def truncatedBody : Bytes := List.replicate 164 0 ++ [1, 2, 9]

set_option maxRecDepth 2000 in
/-- The truncated record is added to the map. -/
theorem truncated_trusted :
    ¬ Distrusts (playerCacheLoadFile (fun _ ↦ failing) [] ([47, 0] ++ truncatedBody)) := by
  rintro ⟨ret, reader, hload, hsound, -⟩
  have hrecords : (playerCacheLoadFile (fun _ ↦ failing) [] ([47, 0] ++ truncatedBody)).map
      (fun loaded ↦ loaded.2.records.map fun record ↦ (record.added, record.body)) =
        some [(true, truncatedBody)] := by
    decide
  rw [hload] at hrecords
  obtain ⟨record, hrecord, heq⟩ := List.mem_map.mp
    (Option.some.inj hrecords ▸ List.mem_singleton_self (true, truncatedBody))
  have hgood : GoodBody record.env record.body := hsound record hrecord (congrArg Prod.fst heq)
  have hcomplete := hgood.complete
  rw [show record.body = truncatedBody from congrArg Prod.snd heq] at hcomplete
  revert hcomplete
  decide

end LibYtdl.Dl.CacheTrust
