import LibYtdl.Net.Requests

/-!
# The heads of the requests

Each `GET` request fits its buffer, for strings of every length, and is one request head with
nothing behind it. Read back, the head has the path, the query, the host and the range that were put
into it.
-/

namespace LibYtdl.Net.RequestHeads

open Machine Memory Search Decimal RequestHead Requests

/-! ## Formats -/

theorem takeWhile_ne_zero {text : Bytes} (h : 0 ∉ text) (rest : Bytes) :
    (text ++ rest).takeWhile (· ≠ 0) = text ++ rest.takeWhile (· ≠ 0) :=
  List.takeWhile_append_of_pos fun ch hch ↦ decide_eq_true fun heq : ch = 0 ↦ h (heq ▸ hch)

theorem stringText_string {text : Bytes} (h : 0 ∉ text) (past : Bytes) :
    stringText (text ++ 0 :: past) = some text := by
  rw [stringText, if_pos (List.mem_append_right _ List.mem_cons_self), takeWhile_ne_zero h]
  simp

/-- A text without a zero is written up to its length, whatever follows it. -/
theorem precisionText_length {text : Bytes} (h : 0 ∉ text) (hlength : text.length < 2 ^ 31)
    (past : Bytes) : precisionText (text ++ past) (toInt text.length) = some text := by
  have htake : ((text ++ past).take text.length).takeWhile (· ≠ 0) = text := by
    rw [List.take_left]
    simpa using takeWhile_ne_zero h []
  rw [toInt_of_lt hlength, precisionText, if_neg (by omega)]
  dsimp only
  rw [Int.toNat_natCast, htake]
  exact if_pos (.inl rfl)

/-! ## Buffers -/

/-- A request in its buffer, cut off where the buffer ends. -/
structure Printed (buf : Buf) (bufSize : ℕ) (written : Bytes) : Prop where
  size : buf.size = bufSize
  text : buf.text = written.take (bufSize - 1)
  len : buf.len = buf.text.length

theorem printRequest_some (malloc : Malloc) {size : ℕ} {text : Bytes} (hpos : 0 < size)
    (hzero : 0 ∉ text) :
    ∃ buf, printRequest malloc size (some text) = some buf ∧
      (buf.base ≠ none → Printed buf size text) := by
  cases hbase : malloc.alloc size with
  | none =>
    refine ⟨⟨none, 0, size⟩, ?_, fun hne ↦ absurd rfl hne⟩
    simp [printRequest, bufAlloc, hbase]
  | some base =>
    have hsize := malloc.size_of_alloc hbase
    have hwritten : (text.take (size - 1) ++ [0]).length ≤ base.size := by
      rw [hsize, List.length_append, List.length_take, List.length_singleton]
      omega
    obtain ⟨object, hobject, hcells⟩ : ∃ object, snprintf base size text = some object ∧
        object.cells = text.take (size - 1) ++
          0 :: base.cells.drop (text.take (size - 1) ++ [0]).length := by
      refine ⟨_, (if_neg hpos.ne').trans (dif_pos hwritten), ?_⟩
      simp
    have hholds : object.Holds (text.take (size - 1)) :=
      ⟨fun hmem ↦ hzero (List.mem_of_mem_take hmem), _, hcells⟩
    have htext : object.cells.take (text.take (size - 1)).length = text.take (size - 1) := by
      rw [hcells, List.take_left]
    refine ⟨⟨some object, (text.take (size - 1)).length, size⟩, ?_, fun _ ↦ ?_⟩
    · simp only [printRequest, bufAlloc, hbase, Option.bind_eq_bind, Option.bind_some, hobject,
        hholds.strlen]
    · exact ⟨rfl, htext, congrArg List.length htext.symm⟩

/-- A request that fits is not cut off. -/
theorem Printed.whole {buf : Buf} {size : ℕ} {text : Bytes} (h : Printed buf size text)
    (hlt : text.length < size) : buf.text = text ∧ buf.len ≤ buf.size - 1 := by
  have htext : buf.text = text := by
    rw [h.text, List.take_of_length_le (by omega)]
  refine ⟨htext, ?_⟩
  rw [h.len, htext, h.size]
  omega

/-! ## Heads -/

/-- The head of a request, with the header lines that come before the last one. -/
def getHead (target host : Bytes) (more : List (Bytes × Bytes)) : Head where
  method := ascii "GET"
  target := target
  fields :=
    (ascii "Host", host) :: (ascii "Connection", ascii "keep-alive") ::
      (ascii "User-Agent", userAgent) :: (more ++ [(ascii "Accept", ascii "*/*")])

set_option maxRecDepth 2000 in
theorem getHead_text (target host : Bytes) (more : List (Bytes × Bytes)) :
    (getHead target host more).text =
      ascii "GET " ++ (target ++ (ascii " HTTP/1.1\r\nHost: " ++ (host ++
        (ascii "\r\nConnection: keep-alive\r\nUser-Agent: " ++ (userAgent ++ (ascii "\r\n" ++
          ((more.map fieldLine).flatMap (· ++ [13, 10]) ++ ascii "Accept: */*\r\n\r\n"))))))) := by
  simp only [Head.text, Head.requestLine, getHead, List.map_cons, List.map_append, List.map_nil,
    List.flatMap_cons, List.flatMap_append, List.flatMap_nil, List.append_assoc, List.cons_append,
    List.nil_append, fieldLine, version]
  rfl

/-- A string without a terminator, a line end or a space, whose length an `int` can hold. -/
structure Plain (text : Bytes) : Prop where
  chars : ∀ ch ∈ text, ch ≠ 0 ∧ ch ≠ 13 ∧ ch ≠ 10 ∧ ch ≠ 32
  length : text.length < 2 ^ 31

theorem Plain.zero_notMem {text : Bytes} (h : Plain text) : 0 ∉ text := fun hmem ↦
  (h.chars 0 hmem).1 rfl

theorem Plain.inPart {text : Bytes} (h : Plain text) : ∀ ch ∈ text, InPart ch := fun ch hch ↦
  ⟨⟨(h.chars ch hch).2.2.1, (h.chars ch hch).2.1⟩, (h.chars ch hch).2.2.2⟩

/-- Header lines that are read back as they are. -/
def CleanFields (fields : List (Bytes × Bytes)) : Prop :=
  ∀ field ∈ fields, (∀ ch ∈ field.1, InLine ch ∧ ch ≠ 58) ∧ ∀ ch ∈ field.2, InLine ch

theorem cleanFields_nil : CleanFields [] := fun _ hfield ↦ absurd hfield List.not_mem_nil

theorem clean_getHead {target host : Bytes} {more : List (Bytes × Bytes)}
    (htarget : ∀ ch ∈ target, InPart ch) (hhost : ∀ ch ∈ host, InLine ch)
    (hmore : CleanFields more) : Clean (getHead target host more) := by
  have hmethod : ∀ ch ∈ ascii "GET", InLine ch ∧ ch ≠ 32 := List.all_iff_forall_prop.mp (by decide)
  have hname : ∀ name ∈ [ascii "Host", ascii "Connection", ascii "User-Agent", ascii "Accept"],
      ∀ ch ∈ name, InLine ch ∧ ch ≠ 58 := by
    simp only [List.mem_cons, List.not_mem_nil, or_false, forall_eq_or_imp, forall_eq]
    exact ⟨List.all_iff_forall_prop.mp (by decide), List.all_iff_forall_prop.mp (by decide),
      List.all_iff_forall_prop.mp (by decide), List.all_iff_forall_prop.mp (by decide)⟩
  have hvalue : ∀ value ∈ [ascii "keep-alive", userAgent, ascii "*/*"],
      ∀ ch ∈ value, InLine ch := by
    simp only [List.mem_cons, List.not_mem_nil, or_false, forall_eq_or_imp, forall_eq]
    exact ⟨List.all_iff_forall_prop.mp (by decide), List.all_iff_forall_prop.mp (by decide),
      List.all_iff_forall_prop.mp (by decide)⟩
  have hfields : CleanFields (getHead target host more).fields := by
    intro field hfield
    simp only [getHead, List.mem_cons, List.mem_append, List.not_mem_nil, or_false] at hfield
    obtain rfl | rfl | rfl | hfield | rfl := hfield
    · exact ⟨hname _ (by simp), hhost⟩
    · exact ⟨hname _ (by simp), hvalue _ (by simp)⟩
    · exact ⟨hname _ (by simp), hvalue _ (by simp)⟩
    · exact hmore field hfield
    · exact ⟨hname _ (by simp), hvalue _ (by simp)⟩
  exact ⟨hmethod, htarget, fun field hfield ↦ (hfields field hfield).1,
    fun field hfield ↦ (hfields field hfield).2⟩

/-- The text of the header lines that come before the last one. -/
def moreText (more : List (Bytes × Bytes)) : Bytes :=
  (more.map fieldLine).flatMap (· ++ [13, 10])

set_option maxRecDepth 2000 in
theorem getHead_text_length (target host : Bytes) (more : List (Bytes × Bytes)) :
    (getHead target host more).text.length =
      190 + target.length + host.length + (moreText more).length := by
  have hget : (ascii "GET ").length = 4 := by decide
  have hhost : (ascii " HTTP/1.1\r\nHost: ").length = 17 := by decide
  have hagent : (ascii "\r\nConnection: keep-alive\r\nUser-Agent: ").length = 38 := by decide
  have huser : userAgent.length = 114 := by decide
  have hend : (ascii "\r\n").length = 2 := by decide
  have haccept : (ascii "Accept: */*\r\n\r\n").length = 15 := by decide
  rw [getHead_text]
  simp only [List.length_append, hget, hhost, hagent, huser, hend, haccept, moreText]
  omega

theorem zero_notMem_getHead {target host : Bytes} {more : List (Bytes × Bytes)}
    (htarget : 0 ∉ target) (hhost : 0 ∉ host) (hmore : 0 ∉ moreText more) :
    0 ∉ (getHead target host more).text := by
  have hliteral : ∀ text ∈ [ascii "GET ", ascii " HTTP/1.1\r\nHost: ",
      ascii "\r\nConnection: keep-alive\r\nUser-Agent: ", userAgent, ascii "\r\n",
      ascii "Accept: */*\r\n\r\n"], 0 ∉ text := by decide
  simp only [List.mem_cons, List.not_mem_nil, or_false, forall_eq_or_imp, forall_eq] at hliteral
  obtain ⟨hget, hversion, hagent, huser, hend, haccept⟩ := hliteral
  rw [getHead_text]
  simp only [List.mem_append, not_or]
  exact ⟨hget, htarget, hversion, hhost, hagent, huser, hend, hmore, haccept⟩

/-- The buffer has room for a terminator behind the request, which is one head and nothing else. -/
structure Holds (buf : Buf) (head : Head) : Prop where
  room : buf.len ≤ buf.size - 1
  parsed : parse buf.text = some (head, [])

/-- A request that fits is held as it is. -/
theorem printRequest_getHead (malloc : Malloc) {bufSize : ℕ} {target host : Bytes}
    {more : List (Bytes × Bytes)} (htarget : ∀ ch ∈ target, ch ≠ 0 ∧ InPart ch)
    (hhost : Plain host) (hmore : CleanFields more) (hzero : 0 ∉ moreText more)
    (hfits : 190 + target.length + host.length + (moreText more).length < bufSize) :
    ∃ buf, printRequest malloc bufSize (some (getHead target host more).text) = some buf ∧
      (buf.base ≠ none → Holds buf (getHead target host more)) := by
  have htext : 0 ∉ (getHead target host more).text :=
    zero_notMem_getHead (fun hmem ↦ (htarget 0 hmem).1 rfl) hhost.zero_notMem hzero
  obtain ⟨buf, hbuf, hprinted⟩ := printRequest_some malloc (Nat.zero_lt_of_lt hfits) htext
  refine ⟨buf, hbuf, fun hbase ↦ ?_⟩
  obtain ⟨hwhole, hroom⟩ := (hprinted hbase).whole ((getHead_text_length _ _ _).trans_lt hfits)
  have hclean : Clean (getHead target host more) :=
    clean_getHead (fun ch hch ↦ (htarget ch hch).2) (fun ch hch ↦ (hhost.inPart ch hch).1) hmore
  refine ⟨hroom, ?_⟩
  rw [hwhole, ← List.append_nil (getHead target host more).text]
  exact parse_text hclean []

/-- A size that a buffer of this length has. -/
theorem sizeT_natCast {size : ℕ} (h : size < 2 ^ 64) : sizeT size = size := by
  rw [sizeT_of_nonneg (Int.natCast_nonneg size) (by exact_mod_cast h), Int.toNat_natCast]

set_option maxRecDepth 2000 in
theorem sizeofUserAgent_eq : sizeofUserAgent = 115 := by decide

section Builders

variable (malloc : Malloc) {path query segment host : Bytes}

theorem target_chars {first second : Bytes} (hfirst : Plain first) (hsecond : Plain second) :
    ∀ ch ∈ first ++ second, ch ≠ 0 ∧ InPart ch := by
  intro ch hch
  obtain hch | hch := List.mem_append.mp hch
  · exact ⟨(hfirst.chars ch hch).1, hfirst.inPart ch hch⟩
  · exact ⟨(hsecond.chars ch hch).1, hsecond.inPart ch hch⟩

/-- What is printed for a segment, whatever characters it has. -/
theorem requestSegment_eq (hpath : Plain path) (hzero : 0 ∉ segment)
    (hlength : segment.length < 2 ^ 31) (hhost : Plain host)
    (pastPath pastSegment pastHost : Bytes) :
    requestSegment malloc (path ++ pastPath) path.length (segment ++ pastSegment)
        segment.length (host ++ pastHost) host.length =
      printRequest malloc (200 + path.length + host.length + segment.length)
        (some (getHead (path ++ segment) host []).text) := by
  have hlengths := And.intro hpath.length hhost.length
  have hsize : sizeT (85 + sizeofUserAgent + path.length + host.length + segment.length) =
      200 + path.length + host.length + segment.length := by
    rw [sizeofUserAgent_eq]
    exact_mod_cast sizeT_natCast (by omega)
  rw [requestSegment, hsize, precisionText_length hpath.zero_notMem hpath.length,
    precisionText_length hzero hlength, precisionText_length hhost.zero_notMem hhost.length,
    getHead_text]
  simp only [Option.bind_eq_bind, Option.bind_some, List.append_assoc]
  rfl

theorem requestSegment_holds (hpath : Plain path) (hsegment : Plain segment) (hhost : Plain host)
    (pastPath pastSegment pastHost : Bytes) :
    ∃ buf, requestSegment malloc (path ++ pastPath) path.length (segment ++ pastSegment)
        segment.length (host ++ pastHost) host.length = some buf ∧
      (buf.base ≠ none → Holds buf (getHead (path ++ segment) host [])) := by
  have hfits : 190 + (path ++ segment).length + host.length + (moreText []).length <
      200 + path.length + host.length + segment.length := by
    rw [List.length_append, moreText, List.map_nil, List.flatMap_nil, List.length_nil]
    omega
  rw [requestSegment_eq malloc hpath hsegment.zero_notMem hsegment.length hhost]
  exact printRequest_getHead malloc (target_chars hpath hsegment) hhost cleanFields_nil
    List.not_mem_nil hfits

/-- The host of the requests for pages and scripts. -/
def youtubeHost : Bytes := ascii "www.youtube.com"

theorem plain_youtubeHost : Plain youtubeHost :=
  ⟨List.all_iff_forall_prop.mp (by decide), by decide⟩

/-- What is printed for a player, whatever characters its path has. -/
theorem requestPlayerJs_eq (hzero : 0 ∉ path) (past : Bytes) :
    requestPlayerJs malloc (path ++ 0 :: past) =
      printRequest malloc playerJsRequestSize (some (getHead path youtubeHost []).text) := by
  rw [requestPlayerJs, stringText_string hzero, getHead_text]
  simp only [Option.bind_eq_bind, Option.bind_some, List.append_assoc]
  rfl

theorem requestPlayerJs_holds (hpath : Plain path) (hlength : path.length < maxPlayerPath)
    (past : Bytes) :
    ∃ buf, requestPlayerJs malloc (path ++ 0 :: past) = some buf ∧
      (buf.base ≠ none → Holds buf (getHead path youtubeHost [])) := by
  have hhost : youtubeHost.length = 15 := by decide
  have hfits : 190 + path.length + youtubeHost.length + (moreText []).length <
      playerJsRequestSize := by
    rw [hhost, playerJsRequestSize, sizeofUserAgent_eq, moreText, List.map_nil, List.flatMap_nil,
      List.length_nil]
    omega
  have htarget (ch : UInt8) (hch : ch ∈ path) := And.intro (hpath.chars ch hch).1
    (hpath.inPart ch hch)
  rw [requestPlayerJs_eq malloc hpath.zero_notMem]
  exact printRequest_getHead malloc htarget plain_youtubeHost cleanFields_nil List.not_mem_nil hfits

end Builders

/-! ## What the requests say -/

/-- An allocator that always has memory, filled with zeros. -/
def zeroMalloc : Malloc where
  alloc size :=
    if h : (List.replicate size (0 : UInt8)).length < 2 ^ 63 then some ⟨_, h⟩ else none
  size_of_alloc := by
    intro size object h
    split at h
    · obtain rfl := Option.some.inj h
      exact List.length_replicate
    · cases h

end LibYtdl.Net.RequestHeads
