import LibYtdl.Info.CipherUrl
import LibYtdl.Info.UrlParts

/-!
# The resource of a format

`ytdl_info_get_format_url2` decodes a whole URL before anything takes it apart: that of a plain
format once, that of a cipher once more than its place in the cipher asks for. A parameter with an
escape for a separator is another one after that.
-/

namespace LibYtdl.Info.UrlResource

open Machine Memory Search Urldecode CipherUrl UrlParts
open Sig.Actions (Entry actionLoop)

/-! ## What a format supplies -/

/-- `url`. -/
def urlKey : Bytes := [117, 114, 108]

/-- The URL of a format, and whether it comes in a cipher: a plain format holds it as it is, and in
a cipher it is the value of the parameter `url`, decoded once. No name before that one ends
like it. -/
inductive Supplies : Option (Object UInt8) → Option (Object UInt8) → Bytes → Bool → Prop
  | plain {urlUntouched : Object UInt8} {url : Bytes} (h : urlUntouched.Holds url) :
      Supplies none (some urlUntouched) url false
  | cipher {formatCipher : Object UInt8} {urlUntouched : Option (Object UInt8)}
      {before after : List Param} {raw : Bytes}
      (h : formatCipher.Holds (query (before ++ (urlKey, raw) :: after)))
      (hclean : ∀ param ∈ before ++ (urlKey, raw) :: after, CleanParam param)
      (hother : ∀ param ∈ before, ¬ urlKey <:+ param.1) :
      Supplies (some formatCipher) urlUntouched (decode raw) true

/-! ## What the function hands over -/

/-- The URL of a plain format is decoded once. -/
theorem formatUrl_plain {heap : ℕ → UInt8} {actions : List Entry} {urlUntouched out : Object UInt8}
    {url : Bytes} (h : urlUntouched.Holds url)
    (hrun : formatUrl heap actions none (some urlUntouched) = some (some out)) :
    out.Holds (decode url) := by
  obtain ⟨len, hlen, hrun⟩ := Option.bind_eq_some_iff.mp hrun
  obtain rfl := Option.some.inj (h.strlen.symm.trans hlen)
  obtain ⟨buffer, hbuffer, hrun⟩ := Option.bind_eq_some_iff.mp hrun
  obtain ⟨decoded, hdecoded, hrun⟩ := Option.bind_eq_some_iff.mp hrun
  obtain rfl : decoded = out := Option.some.inj (Option.some.inj hrun)
  obtain ⟨slack, hcells⟩ := h.2
  have hsplit : urlUntouched.cells = [] ++ url ++ 0 :: slack := hcells
  have hroom : url.length < buffer.size := by
    rw [size_of_calloc hbuffer]
    exact Nat.lt_succ_self _
  obtain ⟨other, hother, hholds⟩ := urldecode_holds hsplit hroom
  obtain rfl := Option.some.inj (hother.symm.trans hdecoded)
  exact hholds

/-- A value that is found ends at a separator, or at the end of the cipher. -/
theorem stops_of_findField {cipher : Object UInt8} {text slack key : Bytes} {start stop : ℕ}
    (hcells : cipher.cells = text ++ 0 :: slack)
    (h : findField cipher text.length key = some (some (start, stop))) : Stops cipher stop := by
  obtain ⟨found, -, h⟩ := Option.bind_eq_some_iff.mp h
  cases found with
  | none => exact absurd h nofun
  | some found =>
    obtain ⟨ampersand, hampersand, h⟩ := Option.bind_eq_some_iff.mp h
    obtain ⟨rfl, rfl⟩ := Prod.mk.inj (Option.some.inj (Option.some.inj h))
    cases ampersand with
    | none =>
      refine .inr ?_
      rw [Option.getD_none, hcells, List.getElem?_append_right le_rfl, Nat.sub_self,
        List.getElem?_cons_zero]
    | some stop =>
      obtain ⟨rest, hrest, hplace⟩ := Option.map_eq_some_iff.mp hampersand
      obtain ⟨index, hindex, rfl⟩ := Option.map_eq_some_iff.mp hplace
      have hdrop := (prefix_of_cstr hrest).drop index
      obtain ⟨more, hmore⟩ := (prefix_of_indexOf hindex).trans hdrop
      rw [List.drop_drop] at hmore
      have hhead := congrArg List.head? hmore
      rw [List.head?_drop] at hhead
      exact .inl hhead.symm

/-- Writing the parameter behind the URL, if it does not leave a buffer. -/
theorem sprintfParam_of_run {heap : ℕ → UInt8} {url sp sig larger out : Object UInt8}
    {text : Bytes} {spLen sigLen : ℕ} (hurl : url.Holds text) (hsp : sp.strlen = some spLen)
    (hsig : sig.strlen = some sigLen)
    (hlarger : realloc heap url (text.length + (spLen + 2) + sigLen + 2) = some larger)
    (hout : sprintfParam larger text.length sp sig = some out) :
    ∃ rest, out.Holds (text ++ 38 :: rest) := by
  obtain ⟨name, hname, rfl⟩ := Object.holds_of_strlen hsp
  obtain ⟨value, hvalue, rfl⟩ := Object.holds_of_strlen hsig
  have hlt : text.length + (name.length + 2) + value.length + 2 < 2 ^ 63 := by
    rw [← size_of_realloc hlarger]
    exact larger.size_lt
  obtain ⟨other, written, hother, hwritten, hholds⟩ := sprintfParam_holds heap hurl hname hvalue hlt
  obtain rfl := Option.some.inj (hother.symm.trans hlarger)
  obtain rfl := Option.some.inj (hwritten.symm.trans hout)
  exact ⟨name ++ 61 :: value, hholds⟩

/-- The URL of a cipher is decoded twice, and a parameter is written behind it, whatever the
signature and its name are. -/
theorem formatUrl_of_cipher {heap : ℕ → UInt8} {actions : List Entry}
    {formatCipher out : Object UInt8} {urlUntouched : Option (Object UInt8)}
    {before after : List Param} {raw : Bytes}
    (h : formatCipher.Holds (query (before ++ (urlKey, raw) :: after)))
    (hclean : ∀ param ∈ before ++ (urlKey, raw) :: after, CleanParam param)
    (hother : ∀ param ∈ before, ¬ urlKey <:+ param.1)
    (hrun : formatUrl heap actions (some formatCipher) urlUntouched = some (some out)) :
    ∃ rest, out.Holds (decode (decode raw) ++ 38 :: rest) := by
  have hraw : Clean raw := (hclean (urlKey, raw) (by simp)).2
  obtain ⟨cipher, hdup, hrun⟩ := Option.bind_eq_some_iff.mp hrun
  obtain ⟨copy, hcopy, hcells⟩ := strdup_holds h
  obtain rfl := Option.some.inj (hcopy.symm.trans hdup)
  obtain ⟨cipherEnd, hend, hrun⟩ := Option.bind_eq_some_iff.mp hrun
  have hlen : copy.strlen = some (query (before ++ (urlKey, raw) :: after)).length :=
    Object.Holds.strlen ⟨h.1, [], hcells⟩
  obtain rfl := Option.some.inj (hlen.symm.trans hend)
  -- the bounds of the three values
  obtain ⟨sigBounds, hsig, hrun⟩ := Option.bind_eq_some_iff.mp hrun
  cases sigBounds with
  | none => exact absurd hrun nofun
  | some sigBounds =>
  obtain ⟨sigStart, sigEnd⟩ := sigBounds
  obtain ⟨spBounds, hsp, hrun⟩ := Option.bind_eq_some_iff.mp hrun
  cases spBounds with
  | none => exact absurd hrun nofun
  | some spBounds =>
  obtain ⟨spStart, spEnd⟩ := spBounds
  obtain ⟨urlBounds, hurl, hrun⟩ := Option.bind_eq_some_iff.mp hrun
  have hfound := findField_query hclean (by decide) hother hcells
  obtain rfl := Option.some.inj (hfound.symm.trans hurl)
  have hfield := fieldAt_query hcells
  -- the values are cut off
  have hsigStops := stops_of_findField hcells hsig
  have hspStops := stops_of_findField hcells hsp
  obtain ⟨first, hfirst, hrun⟩ := Option.bind_eq_some_iff.mp hrun
  obtain ⟨second, hsecond, hrun⟩ := Option.bind_eq_some_iff.mp hrun
  obtain ⟨third, hthird, hrun⟩ := Option.bind_eq_some_iff.mp hrun
  replace hfield := hfield.of_write hfirst hsigStops hraw
  replace hfield := hfield.of_write hsecond (hspStops.of_write hfirst) hraw
  have hended : third.cells[valueStart before urlKey + raw.length]? = some 0 := by
    rw [getElem?_of_write hthird, if_pos rfl]
  replace hfield := hfield.of_write hthird hfield.stop hraw
  obtain ⟨sigBuffer, -, hrun⟩ := Option.bind_eq_some_iff.mp hrun
  obtain ⟨spBuffer, -, hrun⟩ := Option.bind_eq_some_iff.mp hrun
  obtain ⟨urlBuffer, hurlBuffer, hrun⟩ := Option.bind_eq_some_iff.mp hrun
  obtain ⟨sigDecoded, -, hrun⟩ := Option.bind_eq_some_iff.mp hrun
  obtain ⟨spDecoded, -, hrun⟩ := Option.bind_eq_some_iff.mp hrun
  -- the URL is decoded, and once more in place
  obtain ⟨once, honce, hrun⟩ := Option.bind_eq_some_iff.mp hrun
  obtain ⟨buffer, decoded, hbuffer, hdecoded, honceHolds⟩ := decode_field hfield hended
  obtain rfl := Option.some.inj (hbuffer.symm.trans hurlBuffer)
  obtain rfl := Option.some.inj (hdecoded.symm.trans honce)
  obtain ⟨twice, htwice, hrun⟩ := Option.bind_eq_some_iff.mp hrun
  obtain ⟨other, hotherUrl, htwiceHolds⟩ := urldecodeInPlace_holds honceHolds
  obtain rfl := Option.some.inj (hotherUrl.symm.trans htwice)
  -- the parameter is written behind it
  obtain ⟨edited, -, hrun⟩ := Option.bind_eq_some_iff.mp hrun
  obtain ⟨urlOffset, hurlOffset, hrun⟩ := Option.bind_eq_some_iff.mp hrun
  obtain rfl := Option.some.inj (htwiceHolds.strlen.symm.trans hurlOffset)
  obtain ⟨spLen, hspLen, hrun⟩ := Option.bind_eq_some_iff.mp hrun
  obtain ⟨sigLen, hsigLen, hrun⟩ := Option.bind_eq_some_iff.mp hrun
  obtain ⟨larger, hlarger, hrun⟩ := Option.bind_eq_some_iff.mp hrun
  obtain ⟨written, hwritten, hrun⟩ := Option.bind_eq_some_iff.mp hrun
  obtain rfl := Option.some.inj (Option.some.inj hrun)
  exact sprintfParam_of_run htwiceHolds hspLen hsigLen hlarger hwritten

/-! ## The result -/

/-- **The resource is kept** by what is handed to the JavaScript step exactly when the URL has the
shape that it takes: no escape before its query, each piece of the query can be decoded as a whole,
and that of a cipher has a query or a fragment. -/
theorem resource_iff {heap : ℕ → UInt8} {actions : List Entry} {out : Object UInt8}
    {formatCipher urlUntouched : Option (Object UInt8)} {url : Bytes} {ciphered : Bool}
    (h : Supplies formatCipher urlUntouched url ciphered)
    (hrun : formatUrl heap actions formatCipher urlUntouched = some (some out)) :
    ∃ handed, out.Holds handed ∧
      (SameResource url handed ↔ KeepsResource (ciphered = true) url) := by
  cases h with
  | plain h =>
    refine ⟨decode url, formatUrl_plain h hrun, ?_⟩
    have hiff := @sameResource_iff url [] (.inl rfl)
    rw [List.append_nil] at hiff
    simpa using hiff
  | cipher h hclean hother =>
    obtain ⟨rest, hholds⟩ := formatUrl_of_cipher h hclean hother hrun
    refine ⟨_, hholds, ?_⟩
    simpa using @sameResource_iff (decode _) (38 :: rest) (.inr ⟨rest, rfl⟩)

/-! ## Plain formats -/

/-- The URL of a plain format, as it stands in the response. -/
def plainFormat (url : Bytes) : Option (Object UInt8) := alloc (url ++ [0])

/-- A title with a space. -/
def spaceUrl : Bytes := ascii "https://r1.example/videoplayback?title=a%20b&mime=video"

/-- A title with `&`. -/
def ampersandUrl : Bytes := ascii "https://r1.example/videoplayback?title=a%26b&mime=video"

theorem supplies_plainFormat {url : Bytes} (hzero : 0 ∉ url) (hlt : (url ++ [0]).length < 2 ^ 63) :
    Supplies none (plainFormat url) url false := by
  obtain ⟨object, hobject, hcells⟩ := alloc_of_lt hlt
  rw [plainFormat, hobject]
  exact .plain ⟨hzero, [], hcells⟩

set_option maxRecDepth 2000 in
theorem resource_spaceUrl :
    ∃ out handed, formatUrl (fun _ ↦ 0) [] none (plainFormat spaceUrl) = some (some out) ∧
      out.Holds handed ∧ SameResource spaceUrl handed := by
  have hsupplies : Supplies none (plainFormat spaceUrl) spaceUrl false :=
    supplies_plainFormat (by decide) (by decide)
  have hrun : ((formatUrl (fun _ ↦ 0) [] none (plainFormat spaceUrl)).map Option.isSome) =
      some true := by
    decide
  obtain ⟨result, hformat, hsome⟩ := Option.map_eq_some_iff.mp hrun
  obtain ⟨out, rfl⟩ := Option.isSome_iff_exists.mp hsome
  obtain ⟨handed, hholds, hiff⟩ := resource_iff hsupplies hformat
  refine ⟨out, handed, hformat, hholds, hiff.mpr ⟨?_, nofun, ?_⟩⟩
  · rw [decode_eq_takeWhile]
    decide
  · have hquery : queryOf spaceUrl = some (ascii "title=a%20b&mime=video") := by decide
    have hpieces : (ascii "title=a%20b&mime=video").splitOn 38 =
        [ascii "title=a%20b", ascii "mime=video"] := by
      decide
    simp only [hquery, Option.mem_some_iff, forall_eq', hpieces, List.forall_mem_cons]
    refine ⟨⟨?_, ?_, ?_, ?_⟩, ⟨?_, ?_, ?_, ?_⟩, nofun⟩ <;> decide

set_option maxRecDepth 2000 in
/-- After the decoding, the title ends at its `&`. -/
theorem ampersandUrl_not_sameResource :
    ∃ out, formatUrl (fun _ ↦ 0) [] none (plainFormat ampersandUrl) = some (some out) ∧
      Supplies none (plainFormat ampersandUrl) ampersandUrl false ∧
      ∀ handed, out.Holds handed → ¬ SameResource ampersandUrl handed := by
  have hcells : (formatUrl (fun _ ↦ 0) [] none (plainFormat ampersandUrl)).map
      (·.map Object.cells) =
        some (some (ascii "https://r1.example/videoplayback?title=a&b&mime=video" ++
          [0, 0, 0])) := by
    decide
  obtain ⟨result, hformat, hresult⟩ := Option.map_eq_some_iff.mp hcells
  obtain ⟨out, rfl, hout⟩ := Option.map_eq_some_iff.mp hresult
  refine ⟨out, hformat, supplies_plainFormat (by decide) (by decide),
    fun handed hhanded hsame ↦ ?_⟩
  have hholds : out.Holds (ascii "https://r1.example/videoplayback?title=a&b&mime=video") :=
    ⟨by decide, [0, 0], hout⟩
  have hparams := hsame.params
  rw [hhanded.unique hholds] at hparams
  exact absurd hparams (by decide)

end LibYtdl.Info.UrlResource
