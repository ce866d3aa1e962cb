import LibYtdl.Net.UrlFields

/-!
# The id in a URL

`ytdl_net_get_id_from_url` parses a URL, compares its host with the hosts of YouTube and looks for
an id at the end of the path, then behind `v=` in the query. The memory that starts with the URL may
go on behind it. A read outside of the memory has no value.
-/

namespace LibYtdl.Net.VideoId

open Machine Search UrlParser UrlFields

/-! ## The function -/

/-- `yt_hosts`. -/
def ytHosts : List Bytes :=
  [ascii "youtube.com", ascii "www.youtube.com", ascii "youtu.be", ascii "m.youtube.com",
    ascii "music.youtube.com", ascii "gaming.youtube.com"]

/-- `yt_valid_id_map`. -/
def ytValidIdMap : List UInt8 :=
  [0,0,0,0,0,0,0,0,0,0,0,0,0,0,0,0,
    0,0,0,0,0,0,0,0,0,0,0,0,0,0,0,0,
    0,0,0,0,0,0,0,0,0,0,0,0,0,1,0,0,
    1,1,1,1,1,1,1,1,1,1,0,0,0,0,0,0,
    0,1,1,1,1,1,1,1,1,1,1,1,1,1,1,1,
    1,1,1,1,1,1,1,1,1,1,1,0,0,0,0,1,
    0,1,1,1,1,1,1,1,1,1,1,1,1,1,1,1,
    1,1,1,1,1,1,1,1,1,1,1,0,0,0,0,0] ++ List.replicate 128 0

def isValid (ch : UInt8) : Bool := ytValidIdMap.getD ch.toNat 0 ≠ 0

/-- `strncmp(url_buf + s, other, n) == 0`, for a string `other`. -/
def strncmp (mem : Bytes) : ℕ → Bytes → ℕ → Option Bool
  | _, _, 0 => some true
  | s, other, n + 1 => do
    let ch ← mem[s]?
    if ch ≠ other.headD 0 then some false
    else if ch = 0 then some true
    else strncmp mem (s + 1) other.tail n

/-- The loop over `yt_hosts`. -/
def validHost (mem : Bytes) (host : FieldData) : List Bytes → Option Bool
  | [] => some false
  | entry :: hosts => do
    if ← strncmp mem host.off entry host.len then some true else validHost mem host hosts

/-- The loop over the characters of an id, of which `n` are left from the index `s` on. -/
def checkId (mem : Bytes) : ℕ → ℕ → Option Bool
  | _, 0 => some true
  | s, n + 1 => do
    let ch ← mem[s]?
    if isValid ch then checkId mem (s + 1) n else some false

/-- The branch for the path; the inner `none` is `invalid_path_tail`. -/
def pathTail (mem : Bytes) (path : FieldData) : Option (Option Bytes) :=
  if 11 + 1 ≤ path.len then do
    let ch ← mem[path.off + path.len - 11 - 1]?
    if ch = 47 then
      if ← checkId mem (path.off + 1) 11 then
        let id ← readBytes mem (path.off + path.len - 11) 11
        some (some id)
      else some none
    else some none
  else some none

/-- `v=` stands at an index. -/
def isCandidate (mem : Bytes) (index : ℕ) : Option Bool := do
  let ch ← mem[index]?
  if ch = 118 then
    let next ← mem[index + 1]?
    some (next = 61)
  else some false

/-- What is done behind a `v=`; the inner `none` is `fail`. -/
def candidate (mem : Bytes) (start : ℕ) : Option (Option Bytes) := do
  if ← checkId mem start 11 then
    let id ← readBytes mem start 11
    some (some id)
  else some none

/-- The loop over the query, which has `n` iterations left. -/
def queryLoop (mem : Bytes) (off : ℕ) : ℕ → ℕ → Option (Option Bytes)
  | _, 0 => some none
  | x, n + 1 => do
    if ← isCandidate mem (off + x) then candidate mem (off + x + 2)
    else queryLoop mem off (x + 1) n

/-- The branch for the query; the inner `none` is `fail`. -/
def queryId (mem : Bytes) (query : FieldData) : Option (Option Bytes) :=
  if 11 + 2 ≤ query.len then do
    if ← isCandidate mem query.off then candidate mem (query.off + 2)
    else queryLoop mem query.off 0 (query.len - 11)
  else some none

/-- `ytdl_net_get_id_from_url`: the code, and the twelve bytes of `id`. -/
def getIdFromUrl (mem : Bytes) (urlLen : ℕ) (id : Bytes) : Option (ℤ × Bytes) := do
  let some u ← httpParserParseUrl mem urlLen false httpParserUrlInit | some (-1, id)
  if ← validHost mem (u.fieldData .host) ytHosts then
    match ← pathTail mem (u.fieldData .path) with
    | some found => some (0, found ++ [0])
    | none =>
      match ← queryId mem (u.fieldData .query) with
      | some found => some (0, found ++ [0])
      | none => some (1, id)
  else some (1, id)

/-! ## The loops -/

/-- A field of the memory. -/
structure FieldIn (mem : Bytes) (data : FieldData) (text : Bytes) : Prop where
  le : data.off + data.len ≤ mem.length
  text_eq : (mem.drop data.off).take data.len = text

theorem FieldIn.length_eq {mem text : Bytes} {data : FieldData} (h : FieldIn mem data text) :
    text.length = data.len := by
  have hle := h.le
  rw [← h.text_eq, List.length_take, List.length_drop]
  omega

/-- The memory from a character of a field on. -/
theorem FieldIn.drop_eq {mem text : Bytes} {data : FieldData} (h : FieldIn mem data text)
    {index : ℕ} (hle : index ≤ data.len) :
    mem.drop (data.off + index) = text.drop index ++ mem.drop (data.off + data.len) := by
  have hsplit : mem.drop data.off = text ++ mem.drop (data.off + data.len) := by
    rw [← h.text_eq, ← List.drop_drop, List.take_append_drop]
  rw [← List.drop_drop, hsplit, List.drop_append_of_le_length (by rw [h.length_eq]; exact hle)]

theorem FieldIn.getElem? {mem text : Bytes} {data : FieldData} (h : FieldIn mem data text)
    {index : ℕ} (hlt : index < data.len) : mem[data.off + index]? = text[index]? := by
  rw [← h.text_eq, List.getElem?_take_of_lt hlt, List.getElem?_drop]

/-- The text at an index of the memory, without a zero, is compared as a prefix. -/
theorem strncmp_eq {mem text : Bytes} (hzero : 0 ∉ text) {s : ℕ}
    (htext : ∃ rest, mem.drop s = text ++ rest) (other : Bytes) :
    strncmp mem s other text.length = some (decide (text <+: other)) := by
  induction text generalizing s other with
  | nil => simp [strncmp]
  | cons ch text ih =>
    obtain ⟨rest, hrest⟩ := htext
    have hread : mem[s]? = some ch := by
      rw [← List.head?_drop, hrest]
      rfl
    have hnext : mem.drop (s + 1) = text ++ rest := by
      rw [← List.tail_drop, hrest]
      rfl
    have hch : ch ≠ 0 := fun h ↦ hzero (h ▸ List.mem_cons_self)
    have hlater := ih (fun h ↦ hzero (List.mem_cons_of_mem _ h)) ⟨rest, hnext⟩ other.tail
    rw [List.length_cons, strncmp, hread, Option.bind_eq_bind, Option.bind_some, hlater]
    cases other with
    | nil => simp [hch]
    | cons head other =>
      by_cases hsame : ch = head
      · subst hsame
        rw [List.headD_cons, if_neg (not_not.mpr rfl), if_neg hch]
        exact congrArg some (decide_eq_decide.mpr (by simp [List.cons_prefix_cons]))
      · simp [hsame, List.cons_prefix_cons]

theorem validHost_eq {mem text : Bytes} {host : FieldData} (h : FieldIn mem host text)
    (hzero : 0 ∉ text) (hosts : List Bytes) :
    validHost mem host hosts = some (decide (∃ entry ∈ hosts, text <+: entry)) := by
  have hdrop : ∃ rest, mem.drop host.off = text ++ rest := by
    refine ⟨mem.drop (host.off + host.len), ?_⟩
    simpa using h.drop_eq (Nat.zero_le _)
  induction hosts with
  | nil => simp [validHost]
  | cons entry hosts ih =>
    rw [validHost, ← h.length_eq, strncmp_eq hzero hdrop, ih, Option.bind_eq_bind,
      Option.bind_some]
    by_cases hentry : text <+: entry <;> simp [hentry]

/-- The characters at the start of a text are all valid. -/
def ValidFor (n : ℕ) (text : Bytes) : Prop := ∀ ch ∈ text.take n, isValid ch = true

instance (n : ℕ) (text : Bytes) : Decidable (ValidFor n text) :=
  inferInstanceAs (Decidable (∀ ch ∈ text.take n, isValid ch = true))

theorem validFor_cons (n : ℕ) (ch : UInt8) (rest : Bytes) :
    ValidFor (n + 1) (ch :: rest) ↔ isValid ch = true ∧ ValidFor n rest := by
  simp [ValidFor]

/-- The loop ends outside of the memory when all that is left there is valid. -/
theorem checkId_eq (mem : Bytes) (s n : ℕ) :
    checkId mem s n =
      if ValidFor n (mem.drop s) then if n ≤ (mem.drop s).length then some true else none
      else some false := by
  induction n generalizing s with
  | zero => simp [checkId, ValidFor]
  | succ n ih =>
    rw [checkId, ← List.head?_drop, Option.bind_eq_bind, ih, ← List.tail_drop]
    cases mem.drop s with
    | nil => simp [ValidFor]
    | cons ch rest =>
      rw [List.head?_cons, Option.bind_some, List.tail_cons, List.length_cons]
      by_cases hvalid : isValid ch = true
      · simp only [hvalid, if_true, validFor_cons, true_and, Nat.add_le_add_iff_right]
      · simp only [hvalid, if_false, validFor_cons, false_and, Bool.false_eq_true]

/-! ## The branches -/

/-- The id that a path ends with, as far as the function checks it. -/
def pathId (path : Bytes) : Option Bytes :=
  if 12 ≤ path.length ∧ path[path.length - 12]? = some 47 ∧ ValidFor 11 (path.drop 1) then
    some (path.drop (path.length - 11))
  else none

theorem pathTail_eq {mem path : Bytes} {data : FieldData} (h : FieldIn mem data path) :
    pathTail mem data = some (pathId path) := by
  have hlength := h.length_eq
  unfold pathTail pathId
  by_cases hroom : 12 ≤ data.len
  · have hle := h.le
    have hindex : data.off + data.len - 11 - 1 = data.off + (data.len - 12) := by omega
    have hstart : data.off + data.len - 11 = data.off + (data.len - 11) := by omega
    have hslash : mem[data.off + (data.len - 12)]? = path[data.len - 12]? :=
      h.getElem? (by omega)
    have hread : readBytes mem (data.off + (data.len - 11)) 11 =
        some (path.drop (data.len - 11)) := by
      have htail : (path.drop (data.len - 11)).length = 11 := by
        rw [List.length_drop]
        omega
      rw [readBytes, if_pos (by omega), h.drop_eq (by omega),
        List.take_append_of_le_length htail.ge, List.take_of_length_le htail.le]
    have hcheck : checkId mem (data.off + 1) 11 = some (decide (ValidFor 11 (path.drop 1))) := by
      have htext : 11 ≤ (path.drop 1).length := by
        rw [List.length_drop]
        omega
      have hvalid : ValidFor 11 (mem.drop (data.off + 1)) ↔ ValidFor 11 (path.drop 1) := by
        rw [h.drop_eq (by omega), ValidFor, ValidFor, List.take_append_of_le_length htext]
      have hroom : 11 ≤ (mem.drop (data.off + 1)).length := by
        rw [List.length_drop]
        omega
      rw [checkId_eq, if_pos hroom]
      by_cases hall : ValidFor 11 (path.drop 1)
      · rw [if_pos (hvalid.mpr hall), decide_eq_true hall]
      · rw [if_neg fun hmem ↦ hall (hvalid.mp hmem), decide_eq_false hall]
    have hsome : path[data.len - 12]? = some path[data.len - 12] :=
      List.getElem?_eq_getElem (by omega)
    rw [if_pos (show 11 + 1 ≤ data.len from hroom), hindex, hslash, hcheck, hstart, hread, hlength,
      hsome]
    simp only [Option.bind_eq_bind, Option.bind_some, hroom, true_and, Option.some.injEq]
    by_cases hch : path[data.len - 12] = 47
    · by_cases hall : ValidFor 11 (path.drop 1)
      · rw [if_pos hch, if_pos (decide_eq_true hall), if_pos ⟨hch, hall⟩]
      · rw [if_pos hch, if_neg (by simpa using hall), if_neg fun h ↦ hall h.2]
    · rw [if_neg hch, if_neg fun h ↦ hch h.1]
  · rw [if_neg (show ¬ 11 + 1 ≤ data.len from hroom), if_neg fun hall ↦ hroom (hlength ▸ hall.1)]

/-- What the function looks for in a query. -/
def vEquals : Bytes := ascii "v="

theorem isCandidate_eq {mem query : Bytes} {data : FieldData} (h : FieldIn mem data query)
    {x : ℕ} (hx : x + 1 < data.len) :
    isCandidate mem (data.off + x) = some (decide (vEquals <+: query.drop x)) := by
  have hlength := h.length_eq
  have hfirst : mem[data.off + x]? = some query[x] := by
    rw [h.getElem? (by omega), List.getElem?_eq_getElem]
  have hsecond : mem[data.off + x + 1]? = some query[x + 1] := by
    rw [Nat.add_assoc, h.getElem? hx, List.getElem?_eq_getElem]
  have hdrop : query.drop x = query[x] :: query[x + 1] :: query.drop (x + 2) := by
    rw [List.drop_eq_getElem_cons, List.drop_eq_getElem_cons]
  have hshape : vEquals = [118, 61] := by decide
  rw [isCandidate, hfirst, hsecond, hdrop, hshape]
  simp only [Option.bind_eq_bind, Option.bind_some, List.cons_prefix_cons, List.nil_prefix,
    and_true]
  by_cases hv : query[x] = 118
  · simp [hv, eq_comm]
  · simp [hv, Ne.symm hv]

theorem queryLoop_eq {mem query : Bytes} {data : FieldData} (h : FieldIn mem data query)
    {x n : ℕ} (hx : x + n + 11 = data.len) :
    queryLoop mem data.off x n =
      match indexOf vEquals (query.drop x) with
      | some k => if k < n then candidate mem (data.off + (x + k) + 2) else some none
      | none => some none := by
  have hlength := h.length_eq
  induction n generalizing x with
  | zero =>
    rw [queryLoop]
    split <;> rfl
  | succ n ih =>
    have hcons : query.drop x = query[x] :: query.drop (x + 1) := List.drop_eq_getElem_cons _
    rw [queryLoop, isCandidate_eq h (by omega), Option.bind_eq_bind, Option.bind_some]
    by_cases hfound : vEquals <+: query.drop x
    · rw [if_pos (decide_eq_true hfound), indexOf_of_starts hfound]
      rfl
    · rw [if_neg (by simpa using hfound), ih (by omega), hcons,
        indexOf_cons_of_not_starts (hcons ▸ hfound)]
      cases indexOf vEquals (query.drop (x + 1)) with
      | none => rfl
      | some k =>
        have hindex : data.off + (x + 1 + k) + 2 = data.off + (x + (k + 1)) + 2 := by omega
        simp only [Option.map_some, Nat.add_lt_add_iff_right, hindex]

/-- Where the candidate of a query stands that the function takes: it is the first `v=`, unless
fewer than ten characters follow it. -/
def candidateOf (query : Bytes) : Option ℕ :=
  if 13 ≤ query.length then (indexOf vEquals query).filter (· + 11 < query.length) else none

theorem queryId_eq {mem query : Bytes} {data : FieldData} (h : FieldIn mem data query) :
    queryId mem data =
      match candidateOf query with
      | some x => candidate mem (data.off + x + 2)
      | none => some none := by
  have hlength := h.length_eq
  unfold queryId candidateOf
  rw [hlength]
  by_cases hroom : 13 ≤ data.len
  · have hfirst := isCandidate_eq h (show 0 + 1 < data.len by omega)
    rw [Nat.add_zero, List.drop_zero] at hfirst
    have hloop := queryLoop_eq h (show 0 + (data.len - 11) + 11 = data.len by omega)
    rw [List.drop_zero] at hloop
    rw [if_pos (show 11 + 2 ≤ data.len from hroom), if_pos hroom, hfirst, hloop,
      Option.bind_eq_bind, Option.bind_some]
    by_cases hstarts : vEquals <+: query
    · have hlt : 0 + 11 < data.len := by omega
      rw [if_pos (decide_eq_true hstarts), indexOf_of_starts hstarts, Option.filter_some,
        if_pos (decide_eq_true hlt)]
    · rw [if_neg (by simpa using hstarts)]
      cases indexOf vEquals query with
      | none => rfl
      | some k =>
        have hiff : k < data.len - 11 ↔ k + 11 < data.len := by omega
        by_cases hk : k + 11 < data.len
        · simp [hiff, hk, Option.filter]
        · simp [hiff, hk, Option.filter]
  · rw [if_neg (show ¬ 11 + 2 ≤ data.len from hroom), if_neg hroom]

theorem candidate_eq (mem : Bytes) (start : ℕ) :
    candidate mem start =
      if ValidFor 11 (mem.drop start) then
        if 11 ≤ (mem.drop start).length then some (some ((mem.drop start).take 11)) else none
      else some none := by
  rw [candidate, checkId_eq]
  by_cases hvalid : ValidFor 11 (mem.drop start)
  · by_cases hroom : 11 ≤ (mem.drop start).length
    · have hinside : start + 11 ≤ mem.length := by
        rw [List.length_drop] at hroom
        omega
      rw [if_pos hvalid, if_pos hroom, if_pos hvalid, if_pos hroom, readBytes, if_pos hinside]
      rfl
    · rw [if_pos hvalid, if_neg hroom, if_pos hvalid, if_neg hroom]
      rfl
  · rw [if_neg hvalid, if_neg hvalid]
    rfl

/-! ## The whole function -/

/-- The comparison with the table: the host is the start of an entry, or the whole of it. -/
def HostAccepted (host : Bytes) : Prop := ∃ entry ∈ ytHosts, host <+: entry

instance (host : Bytes) : Decidable (HostAccepted host) :=
  inferInstanceAs (Decidable (∃ entry ∈ ytHosts, host <+: entry))

/-- The fields of a URL, and the memory behind its start. -/
theorem fieldIn_of_parse {url : Bytes} {u : HttpParserUrl} (h : parse url = some u) (past : Bytes)
    (uf : Field) : FieldIn (url ++ past) (u.fieldData uf) (u.slice uf url) := by
  have hinside := (parse_inside h).1 uf
  refine ⟨?_, ?_⟩
  · rw [List.length_append]
    omega
  · rw [HttpParserUrl.slice, List.drop_append_of_le_length (by omega),
      List.take_append_of_le_length (by rw [List.length_drop]; omega)]

/-- What is found behind the candidate of the query. -/
def afterCandidate (url past : Bytes) (u : HttpParserUrl) (x : ℕ) : Bytes :=
  (url ++ past).drop ((u.fieldData .query).off + x + 2)

/-- What comes of a URL with these fields. -/
def idOutcome (url past : Bytes) (u : HttpParserUrl) (id : Bytes) : Option (ℤ × Bytes) :=
  if HostAccepted (u.slice .host url) then
    match pathId (u.slice .path url) with
    | some found => some (0, found ++ [0])
    | none =>
      match candidateOf (u.slice .query url) with
      | some x =>
        let text := afterCandidate url past u x
        if ValidFor 11 text then
          if 11 ≤ text.length then some (0, text.take 11 ++ [0]) else none
        else some (1, id)
      | none => some (1, id)
  else some (1, id)

theorem getIdFromUrl_eq {url : Bytes} {u : HttpParserUrl} (h : parse url = some u)
    (past id : Bytes) :
    getIdFromUrl (url ++ past) url.length id = idOutcome url past u id := by
  have hzero : 0 ∉ u.slice .host url := fun hmem ↦
    (parse_inside h).2 (List.mem_of_mem_drop (List.mem_of_mem_take hmem))
  have hhost : validHost (url ++ past) (u.fieldData .host) ytHosts =
      some (decide (HostAccepted (u.slice .host url))) :=
    validHost_eq (fieldIn_of_parse h past .host) hzero ytHosts
  unfold getIdFromUrl idOutcome
  rw [httpParserParseUrl_append, h, Option.bind_eq_bind, Option.bind_some]
  dsimp only
  rw [hhost, pathTail_eq (fieldIn_of_parse h past .path),
    queryId_eq (fieldIn_of_parse h past .query)]
  simp only [Option.bind_eq_bind, Option.bind_some]
  by_cases haccepted : HostAccepted (u.slice .host url)
  · rw [if_pos haccepted, if_pos (decide_eq_true haccepted)]
    cases pathId (u.slice .path url) with
    | some found => rfl
    | none =>
      cases candidateOf (u.slice .query url) with
      | none => rfl
      | some x =>
        dsimp only
        rw [candidate_eq]
        unfold afterCandidate
        split_ifs <;> rfl
  · rw [if_neg haccepted, if_neg (by simpa using haccepted)]

theorem getIdFromUrl_of_rejected {url : Bytes} (h : parse url = none) (past id : Bytes) :
    getIdFromUrl (url ++ past) url.length id = some (-1, id) := by
  unfold getIdFromUrl
  rw [httpParserParseUrl_append, h]
  rfl

end LibYtdl.Net.VideoId
