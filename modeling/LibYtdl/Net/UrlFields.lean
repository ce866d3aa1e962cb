import LibYtdl.Net.UrlParser

/-!
# The fields of a URL

What holds of every URL that `http_parser_parse_url` accepts: the parser reads nothing but the URL,
its fields lie in it, and a field without its bit is empty. Runs of characters that keep a state,
and plain hosts, are followed exactly.
-/

namespace LibYtdl.Net.UrlFields

open Machine UrlParser

/-! ## The fields lie in the URL -/

/-- Every field ends at the bound or before it. -/
def Inside (u : HttpParserUrl) (bound : ℕ) : Prop :=
  ∀ uf, (u.fieldData uf).off + (u.fieldData uf).len ≤ bound

theorem u16_le (value : ℕ) : u16 value ≤ value := Nat.mod_le _ _

theorem u16_of_lt {value : ℕ} (h : value < 2 ^ 16) : u16 value = value := Nat.mod_eq_of_lt h

theorem Inside.mono {u : HttpParserUrl} {bound more : ℕ} (h : Inside u bound) (hle : bound ≤ more) :
    Inside u more :=
  fun uf ↦ (h uf).trans hle

@[simp]
theorem extend_fieldData_self (u : HttpParserUrl) (uf : Field) :
    (u.extend uf).fieldData uf = ⟨(u.fieldData uf).off, u16 ((u.fieldData uf).len + 1)⟩ :=
  Function.update_self _ _ _

@[simp]
theorem extend_fieldData_of_ne {uf other : Field} (h : other ≠ uf) (u : HttpParserUrl) :
    (u.extend uf).fieldData other = u.fieldData other :=
  Function.update_of_ne h _ _

@[simp]
theorem start_fieldData_self (u : HttpParserUrl) (uf : Field) (index : ℕ) :
    (u.start uf index).fieldData uf = ⟨u16 index, 0⟩ :=
  Function.update_self _ _ _

@[simp]
theorem start_fieldData_of_ne {uf other : Field} (h : other ≠ uf) (u : HttpParserUrl) (index : ℕ) :
    (u.start uf index).fieldData other = u.fieldData other :=
  Function.update_of_ne h _ _

@[simp]
theorem extend_fieldSet (u : HttpParserUrl) (uf : Field) :
    (u.extend uf).fieldSet = u.fieldSet := rfl

/-- The offset stays, the length grows by one at most. -/
theorem extend_off_add_len_le (u : HttpParserUrl) (uf other : Field) :
    ((u.extend uf).fieldData other).off + ((u.extend uf).fieldData other).len ≤
      (u.fieldData other).off + (u.fieldData other).len + 1 := by
  by_cases h : other = uf
  · subst h
    have hle := u16_le ((u.fieldData other).len + 1)
    simp only [extend_fieldData_self]
    omega
  · rw [extend_fieldData_of_ne h]
    omega

theorem Inside.extend {u : HttpParserUrl} {bound : ℕ} (h : Inside u bound) (uf : Field) :
    Inside (u.extend uf) (bound + 1) := by
  intro other
  have hle := extend_off_add_len_le u uf other
  have hother := h other
  omega

theorem Inside.start {u : HttpParserUrl} {bound index : ℕ} (h : Inside u bound)
    (hle : index ≤ bound) (uf : Field) : Inside (u.start uf index) bound := by
  intro other
  by_cases hother : other = uf
  · subst hother
    have hindex := u16_le index
    simp only [start_fieldData_self]
    omega
  · rw [start_fieldData_of_ne hother]
    exact h other

/-- What a character of a field does to the loop. -/
inductive Enters (scan next : Scan) (index : ℕ) (uf : Field) : Prop
  | same (hold : scan.oldUf = some uf) (hnew : next.oldUf = some uf)
      (hu : next.u = scan.u.extend uf)
  | fresh (hold : scan.oldUf ≠ some uf) (hnew : next.oldUf = some uf)
      (hu : next.u = (scan.u.start uf index).extend uf)

/-- What one character does: a delimiter changes the state only, every other one belongs to
a field. -/
theorem scanStep_cases {scan next : Scan} {index : ℕ} {ch : UInt8}
    (h : scanStep scan index ch = some next) :
    parseUrlChar scan.s ch ≠ .dead ∧
      ((next.u = scan.u ∧ next.oldUf = scan.oldUf) ∨ ∃ uf, Enters scan next index uf) := by
  have henter (s : State) (found : Bool) (uf : Field) :
      Enters scan (({ scan with s := s, foundAt := found } : Scan).enter uf index) index uf := by
    unfold Scan.enter
    split
    · next hsame => exact .same hsame hsame rfl
    · next hother => exact .fresh hother rfl rfl
  unfold scanStep at h
  cases hs : parseUrlChar scan.s ch <;> simp only [hs, Option.some.injEq, reduceCtorEq] at h <;>
    refine ⟨by simp, ?_⟩ <;> subst h
  all_goals first
    | exact .inl ⟨rfl, rfl⟩
    | exact .inr ⟨_, henter _ _ _⟩

theorem scanLoop_inside {url : Bytes} {scan next : Scan} {index : ℕ}
    (h : scanLoop scan index url = some next) (hinside : Inside scan.u index) :
    Inside next.u (index + url.length) := by
  induction url generalizing scan index with
  | nil =>
    obtain rfl := Option.some.inj h
    exact hinside
  | cons ch rest ih =>
    obtain ⟨middle, hstep, hrest⟩ := Option.bind_eq_some_iff.mp h
    have hmiddle : Inside middle.u (index + 1) := by
      obtain ⟨-, ⟨hu, -⟩ | ⟨uf, ⟨-, -, hu⟩ | ⟨-, -, hu⟩⟩⟩ := scanStep_cases hstep
      · rw [hu]
        exact hinside.mono (Nat.le_succ index)
      · rw [hu]
        exact hinside.extend uf
      · rw [hu]
        exact (hinside.start le_rfl uf).extend uf
    have hlast := ih hrest hmiddle
    rw [List.length_cons]
    exact hlast.mono (by omega)

/-- No state accepts a zero. -/
theorem parseUrlChar_zero (s : State) : parseUrlChar s 0 = .dead := by
  cases s <;> decide

/-- A character that no state accepts is not in a URL. -/
theorem notMem_of_scanLoop {bad : UInt8} (hbad : ∀ s, parseUrlChar s bad = .dead) {url : Bytes}
    {scan next : Scan} {index : ℕ} (h : scanLoop scan index url = some next) : bad ∉ url := by
  induction url generalizing scan index with
  | nil => exact List.not_mem_nil
  | cons ch rest ih =>
    obtain ⟨middle, hstep, hrest⟩ := Option.bind_eq_some_iff.mp h
    refine List.not_mem_cons_of_ne_of_not_mem ?_ (ih hrest)
    rintro rfl
    exact (scanStep_cases hstep).1 (hbad scan.s)

/-- The states in which nothing of the host itself was read. -/
def beforeHost : List HostState := [.userinfoStart, .userinfo, .hostStart, .v6Start]

/-- The host is empty until its own state is entered, and the fields that the second machine fills
end where it is. -/
structure HostInside (u : HttpParserUrl) (s : HostState) (index bound : ℕ) : Prop where
  inside : Inside u bound
  host : (u.fieldData .host).off + (u.fieldData .host).len ≤ index
  empty : s ∈ beforeHost → (u.fieldData .host).len = 0
  port : s = .port → (u.fieldData .port).off + (u.fieldData .port).len ≤ index
  userinfo : s = .userinfo → (u.fieldData .userinfo).off + (u.fieldData .userinfo).len ≤ index

/-- Where the states of the host are entered from. -/
theorem httpParseHostChar_from {s next : HostState} {ch : UInt8}
    (h : httpParseHostChar s ch = next) :
    (next ∈ beforeHost → s ∈ beforeHost) ∧ (next = .host → s = .host ∨ s ∈ beforeHost) ∧
      (next = .v6 → s = .v6 ∨ s ∈ beforeHost) := by
  subst h
  cases s with
  | dead => simp [httpParseHostChar]
  | _ =>
    simp only [httpParseHostChar, httpParseHostChar.userinfo, httpParseHostChar.zone]
    split_ifs <;> simp [beforeHost]

/-- A field that ends at the index or before it, with one character more. -/
theorem Inside.update {u v : HttpParserUrl} {uf : Field} {index bound : ℕ} (h : Inside u bound)
    (hlt : index < bound) (hself : (v.fieldData uf).off + (v.fieldData uf).len ≤ index + 1)
    (hother : ∀ other, other ≠ uf → v.fieldData other = u.fieldData other) : Inside v bound := by
  intro other
  by_cases heq : other = uf
  · subst heq
    omega
  · rw [hother other heq]
    exact h other

/-- Another character of the host. -/
theorem HostInside.extendHost {u : HttpParserUrl} {s own : HostState} {index bound : ℕ}
    (h : HostInside u s index bound) (hlt : index < bound) (hown : s = own ∨ s ∈ beforeHost)
    {next : HostState} (hnext : next ∉ beforeHost) (hport : next ≠ .port) :
    HostInside (hostField.extendHost u s index own) next (index + 1) bound := by
  have hothers (other : Field) (hne : other ≠ .host) :
      (hostField.extendHost u s index own).fieldData other = u.fieldData other := by
    unfold hostField.extendHost
    rw [extend_fieldData_of_ne hne]
    exact Function.update_of_ne hne _ _
  have hself : ((hostField.extendHost u s index own).fieldData .host).off +
      ((hostField.extendHost u s index own).fieldData .host).len ≤ index + 1 := by
    have hhost := h.host
    have hindex := u16_le index
    have hempty := h.empty
    unfold hostField.extendHost
    simp only [extend_fieldData_self, Function.update_self]
    split
    · next hne =>
      have hlen := hempty (hown.resolve_left hne)
      have hle := u16_le ((u.fieldData .host).len + 1)
      simp only
      omega
    · have hle := u16_le ((u.fieldData .host).len + 1)
      omega
  refine ⟨h.inside.update hlt hself hothers, hself, fun hmem ↦ absurd hmem hnext,
    fun heq ↦ absurd heq hport, ?_⟩
  rintro rfl
  exact absurd (by decide) hnext

/-- A character of the port, or of the user information. -/
theorem HostInside.extendOther {u : HttpParserUrl} {s : HostState} {index bound : ℕ}
    (h : HostInside u s index bound) (hlt : index < bound) (own : HostState) (uf : Field)
    (hself : s = own → (u.fieldData uf).off + (u.fieldData uf).len ≤ index) (hne : uf ≠ .host) :
    let next := if s ≠ own then (u.start uf index).extend uf else u.extend uf
    Inside next bound ∧ (next.fieldData uf).off + (next.fieldData uf).len ≤ index + 1 ∧
      next.fieldData .host = u.fieldData .host := by
  intro next
  have hother (other : Field) (hother : other ≠ uf) :
      next.fieldData other = u.fieldData other := by
    simp only [next]
    split
    · rw [extend_fieldData_of_ne hother, start_fieldData_of_ne hother]
    · rw [extend_fieldData_of_ne hother]
  have hbound : (next.fieldData uf).off + (next.fieldData uf).len ≤ index + 1 := by
    simp only [next]
    split
    · have hindex := u16_le index
      have hle := u16_le (0 + 1)
      simp only [extend_fieldData_self, start_fieldData_self]
      omega
    · next hown =>
      have hold := hself (not_not.mp hown)
      have hle := extend_off_add_len_le u uf uf
      omega
  exact ⟨h.inside.update hlt hbound hother, hbound, hother .host hne.symm⟩

/-- One character of the host. -/
theorem HostInside.step {u : HttpParserUrl} {s next : HostState} {index bound : ℕ} {ch : UInt8}
    (h : HostInside u s index bound) (hlt : index < bound) (hnext : httpParseHostChar s ch = next) :
    HostInside (hostField u s next index) next (index + 1) bound := by
  obtain ⟨hbefore, hhost, hv6⟩ := httpParseHostChar_from hnext
  have hkeep (hne : next ≠ .port) (hne' : next ≠ .userinfo) :
      HostInside u next (index + 1) bound :=
    ⟨h.inside, h.host.trans (Nat.le_succ index), fun hmem ↦ h.empty (hbefore hmem),
      fun heq ↦ absurd heq hne, fun heq ↦ absurd heq hne'⟩
  have hzone (hmem : next ∉ beforeHost) (hport : next ≠ .port) :
      HostInside (u.extend .host) next (index + 1) bound := by
    have hself : ((u.extend .host).fieldData .host).off +
        ((u.extend .host).fieldData .host).len ≤ index + 1 :=
      (extend_off_add_len_le u .host .host).trans (Nat.succ_le_succ h.host)
    have hother (other : Field) (hne : other ≠ .host) :
        (u.extend .host).fieldData other = u.fieldData other :=
      extend_fieldData_of_ne hne u
    refine ⟨h.inside.update hlt hself hother, hself, fun heq ↦ absurd heq hmem,
      fun heq ↦ absurd heq hport, ?_⟩
    rintro rfl
    exact absurd (by decide) hmem
  cases next with
  | host => exact h.extendHost hlt (hhost rfl) (by decide) (by decide)
  | v6 => exact h.extendHost hlt (hv6 rfl) (by decide) (by decide)
  | v6ZoneStart => exact hzone (by decide) (by decide)
  | v6Zone => exact hzone (by decide) (by decide)
  | port =>
    obtain ⟨hinside, hport, hsame⟩ := h.extendOther hlt .port .port h.port (by decide)
    refine ⟨hinside, ?_, fun hmem ↦ absurd hmem (by decide), fun _ ↦ hport,
      fun heq ↦ absurd heq (by decide)⟩
    simp only [hostField, hsame]
    exact h.host.trans (Nat.le_succ index)
  | userinfo =>
    obtain ⟨hinside, huserinfo, hsame⟩ :=
      h.extendOther hlt .userinfo .userinfo h.userinfo (by decide)
    refine ⟨hinside, ?_, fun hmem ↦ ?_, fun heq ↦ absurd heq (by decide), fun _ ↦ huserinfo⟩
    · simp only [hostField, hsame]
      exact h.host.trans (Nat.le_succ index)
    · simp only [hostField, hsame]
      exact h.empty (hbefore hmem)
  | dead => exact hkeep (by decide) (by decide)
  | userinfoStart => exact hkeep (by decide) (by decide)
  | hostStart => exact hkeep (by decide) (by decide)
  | v6Start => exact hkeep (by decide) (by decide)
  | v6End => exact hkeep (by decide) (by decide)
  | portStart => exact hkeep (by decide) (by decide)

theorem HostInside.loop {chars : Bytes} {u v : HttpParserUrl} {s last : HostState}
    {index bound : ℕ} (h : HostInside u s index bound) (hbound : index + chars.length ≤ bound)
    (hloop : hostLoop u s index chars = some (v, last)) : Inside v bound := by
  induction chars generalizing u s index with
  | nil =>
    obtain ⟨rfl, -⟩ := Prod.mk.inj (Option.some.inj hloop)
    exact h.inside
  | cons ch rest ih =>
    rw [List.length_cons] at hbound
    rw [hostLoop] at hloop
    split at hloop
    · cases hloop
    · exact ih (h.step (by omega) rfl) (by omega) hloop

/-! ## What the parser reads -/

theorem readBytes_append {url : Bytes} {off len : ℕ} (h : off + len ≤ url.length) (past : Bytes) :
    readBytes (url ++ past) off len = some ((url.drop off).take len) := by
  have hle : off + len ≤ (url ++ past).length := by
    rw [List.length_append]
    omega
  have hdrop : (url ++ past).drop off = url.drop off ++ past :=
    List.drop_append_of_le_length (by omega)
  rw [readBytes, if_pos hle, hdrop, List.take_append_of_le_length (by simp; omega)]

/-- The host is read inside of the URL. -/
theorem httpParseHost_reads {url : Bytes} {u : HttpParserUrl} (h : Inside u url.length)
    (foundAt : Bool) :
    ∃ result, (∀ past, httpParseHost (url ++ past) u foundAt = some result) ∧
      ∀ v ∈ result, Inside v url.length := by
  let data := u.fieldData .host
  let empty : HttpParserUrl :=
    { u with fieldData := Function.update u.fieldData .host ⟨data.off, 0⟩ }
  let s : HostState := if foundAt then .userinfoStart else .hostStart
  let chars := (url.drop data.off).take data.len
  have hdata : data.off + data.len ≤ url.length := h .host
  have hlength : data.off + chars.length ≤ url.length := by
    have hle : chars.length ≤ data.len := List.length_take_le _ _
    omega
  have hread (past : Bytes) : httpParseHost (url ++ past) u foundAt =
      match hostLoop empty s data.off chars with
      | none => some none
      | some (v, last) => if unfinished last then some none else some (some v) := by
    unfold httpParseHost
    dsimp only
    rw [readBytes_append hdata]
    dsimp only [Option.bind_eq_bind, Option.bind_some]
    cases hostLoop empty s data.off chars with
    | none => rfl
    | some result => rfl
  have hempty : HostInside empty s data.off url.length := by
    have hself : empty.fieldData .host = ⟨data.off, 0⟩ := by
      simp only [empty, Function.update_self]
    refine ⟨fun uf ↦ ?_, ?_, fun _ ↦ ?_, ?_, ?_⟩
    · by_cases huf : uf = .host
      · rw [huf, hself]
        exact (Nat.le_add_right _ _).trans hdata
      · have hsame : empty.fieldData uf = u.fieldData uf := by
          simp only [empty, Function.update_of_ne huf]
        rw [hsame]
        exact h uf
    · rw [hself]
      exact le_rfl
    · rw [hself]
    · intro hs
      exact absurd hs (by cases foundAt <;> decide)
    · intro hs
      exact absurd hs (by cases foundAt <;> decide)
  cases hloop : hostLoop empty s data.off chars with
  | none =>
    refine ⟨none, fun past ↦ ?_, fun v hv ↦ absurd hv (Option.not_mem_none v)⟩
    rw [hread, hloop]
  | some result =>
    obtain ⟨v, last⟩ := result
    have hinside := hempty.loop hlength hloop
    refine ⟨if unfinished last then none else some v, fun past ↦ ?_, fun w hw ↦ ?_⟩
    · rw [hread, hloop]
      dsimp only
      split <;> rfl
    · split at hw
      · exact absurd hw (Option.not_mem_none w)
      · rwa [← Option.some.inj hw]

/-- So is the port. -/
theorem parsePort_reads {url : Bytes} {u : HttpParserUrl} (h : Inside u url.length) :
    ∃ result, (∀ past, parsePort (url ++ past) u = some result) ∧
      ∀ v ∈ result, Inside v url.length := by
  unfold parsePort
  by_cases hport : u.fieldSet .port = true
  · simp only [hport, ↓reduceIte, readBytes_append (h .port), Option.bind_eq_bind,
      Option.bind_some]
    cases portLoop 0 ((url.drop (u.fieldData .port).off).take (u.fieldData .port).len) with
    | none => exact ⟨none, fun _ ↦ rfl, fun v hv ↦ absurd hv (Option.not_mem_none v)⟩
    | some v =>
      refine ⟨some { u with port := u16 v }, fun _ ↦ rfl, fun w hw ↦ ?_⟩
      rw [← Option.some.inj hw]
      exact h
  · simp only [hport, Bool.false_eq_true, ↓reduceIte]
    refine ⟨some u, fun _ ↦ rfl, fun w hw ↦ ?_⟩
    rwa [← Option.some.inj hw]

/-- How the loop over the URL starts. -/
def scanStart : Scan := ⟨.spacesBeforeUrl, none, false, httpParserUrlInit⟩

theorem httpParserParseUrl_eq {url : Bytes} (hne : url ≠ []) (past : Bytes) :
    httpParserParseUrl (url ++ past) url.length false httpParserUrlInit =
      (scanLoop scanStart 0 url).elim (some none) (finish (url ++ past) false) := by
  have hlength : url.length ≠ 0 := fun h ↦ hne (List.length_eq_zero_iff.mp h)
  have hread : readBytes (url ++ past) 0 url.length = some url := by
    rw [readBytes_append (by omega), List.drop_zero, List.take_length]
  have hstart : (⟨if false = true then .serverStart else .spacesBeforeUrl, none, false,
      { httpParserUrlInit with port := 0, fieldSet := fun _ ↦ false }⟩ : Scan) = scanStart := rfl
  unfold httpParserParseUrl
  rw [if_neg hlength, hread]
  dsimp only [Option.bind_eq_bind, Option.bind_some]
  rw [hstart]
  cases scanLoop scanStart 0 url with
  | none => rfl
  | some scan => rfl

/-- What stands behind the two checks, for a URL that is not for `CONNECT`. -/
theorem finish_of_host {mem : Bytes} {scan : Scan} (hhost : scan.u.fieldSet .host = true) :
    finish mem false scan =
      (httpParseHost mem scan.u scan.foundAt).bind fun u ↦ u.elim (some none) (parsePort mem) := by
  unfold finish
  rw [if_neg fun h ↦ h.2 hhost]
  simp only [hhost, if_true, Option.bind_eq_bind]
  congr 1
  funext u
  cases u with
  | none => rfl
  | some u => simp

theorem finish_of_noHost {mem : Bytes} {scan : Scan} (hhost : scan.u.fieldSet .host = false) :
    finish mem false scan =
      if scan.u.fieldSet .schema = true then some none else parsePort mem scan.u := by
  unfold finish
  by_cases hschema : scan.u.fieldSet .schema = true
  · rw [if_pos ⟨hschema, by simp [hhost]⟩, if_pos hschema]
  · rw [if_neg fun h ↦ hschema h.1, if_neg hschema]
    simp [hhost]

/-- The parser reads nothing but the URL, and its fields lie in it. -/
theorem httpParserParseUrl_reads (url : Bytes) :
    ∃ result, (∀ past, httpParserParseUrl (url ++ past) url.length false httpParserUrlInit =
        some result) ∧
      ∀ u ∈ result, Inside u url.length ∧ 0 ∉ url := by
  by_cases hne : url = []
  · subst hne
    exact ⟨none, fun _ ↦ rfl, fun u hu ↦ absurd hu (Option.not_mem_none u)⟩
  · cases hscan : scanLoop scanStart 0 url with
    | none =>
      refine ⟨none, fun past ↦ ?_, fun u hu ↦ absurd hu (Option.not_mem_none u)⟩
      rw [httpParserParseUrl_eq hne, hscan, Option.elim_none]
    | some scan =>
      have hzero := notMem_of_scanLoop parseUrlChar_zero hscan
      have hinside : Inside scan.u url.length := by
        have hstart : Inside scanStart.u 0 := fun _ ↦ le_rfl
        simpa using scanLoop_inside hscan hstart
      have hfinish : ∃ result, (∀ past, finish (url ++ past) false scan = some result) ∧
          ∀ u ∈ result, Inside u url.length := by
        cases hhost : scan.u.fieldSet .host with
        | true =>
          simp only [finish_of_host hhost]
          obtain ⟨result, hread, hresult⟩ := httpParseHost_reads hinside scan.foundAt
          simp only [hread, Option.bind_some]
          cases result with
          | none => exact ⟨none, fun _ ↦ rfl, fun u hu ↦ absurd hu (Option.not_mem_none u)⟩
          | some v => exact parsePort_reads (hresult v rfl)
        | false =>
          simp only [finish_of_noHost hhost]
          split
          · exact ⟨none, fun _ ↦ rfl, fun u hu ↦ absurd hu (Option.not_mem_none u)⟩
          · exact parsePort_reads hinside
      obtain ⟨result, hread, hresult⟩ := hfinish
      refine ⟨result, fun past ↦ ?_, fun u hu ↦ ⟨hresult u hu, hzero⟩⟩
      rw [httpParserParseUrl_eq hne, hscan]
      exact hread past

/-- The fields of a URL, if the parser accepts it. -/
def parse (url : Bytes) : Option HttpParserUrl :=
  (httpParserParseUrl url url.length false httpParserUrlInit).join

theorem httpParserParseUrl_append (url past : Bytes) :
    httpParserParseUrl (url ++ past) url.length false httpParserUrlInit = some (parse url) := by
  obtain ⟨result, hread, -⟩ := httpParserParseUrl_reads url
  have hparse : parse url = result := by
    have hself := hread []
    rw [List.append_nil] at hself
    rw [parse, hself]
    rfl
  rw [hread, hparse]

theorem parse_inside {url : Bytes} {u : HttpParserUrl} (h : parse url = some u) :
    Inside u url.length ∧ 0 ∉ url := by
  obtain ⟨result, hread, hresult⟩ := httpParserParseUrl_reads url
  have hself := httpParserParseUrl_append url []
  rw [hread, h] at hself
  exact hresult u (Option.some.inj hself)

theorem parse_cases {url : Bytes} {u : HttpParserUrl} (h : parse url = some u) :
    ∃ scan, scanLoop scanStart 0 url = some scan ∧ finish url false scan = some (some u) := by
  have hself := httpParserParseUrl_append url []
  rw [List.append_nil, h] at hself
  by_cases hne : url = []
  · subst hne
    exact absurd hself nofun
  · have heq := httpParserParseUrl_eq hne []
    rw [List.append_nil, hself] at heq
    cases hscan : scanLoop scanStart 0 url with
    | none =>
      rw [hscan] at heq
      exact absurd heq nofun
    | some scan =>
      rw [hscan] at heq
      exact ⟨scan, rfl, heq.symm⟩

/-! ## Fields that are not there -/

/-- A field without its bit in `field_set` is empty. -/
structure Recorded (scan : Scan) : Prop where
  current : ∀ uf, scan.oldUf = some uf → scan.u.fieldSet uf = true
  unset : ∀ uf, scan.u.fieldSet uf = false → scan.u.fieldData uf = ⟨0, 0⟩

theorem start_fieldSet (u : HttpParserUrl) (uf other : Field) (index : ℕ) :
    (u.start uf index).fieldSet other = if other = uf then true else u.fieldSet other :=
  Function.update_apply _ _ _ _

theorem Recorded.step {scan next : Scan} (h : Recorded scan) {index : ℕ} {ch : UInt8}
    (hstep : scanStep scan index ch = some next) : Recorded next := by
  obtain ⟨-, ⟨hu, hold⟩ | ⟨uf, ⟨hsame, hnew, hu⟩ | ⟨-, hnew, hu⟩⟩⟩ := scanStep_cases hstep
  · refine ⟨fun uf huf ↦ ?_, fun uf huf ↦ ?_⟩
    · rw [hu]
      exact h.current uf (hold ▸ huf)
    · rw [hu] at huf ⊢
      exact h.unset uf huf
  · have hset := h.current uf hsame
    refine ⟨fun other hother ↦ ?_, fun other hother ↦ ?_⟩
    · obtain rfl := Option.some.inj (hnew.symm.trans hother)
      rw [hu, extend_fieldSet]
      exact hset
    · rw [hu, extend_fieldSet] at hother
      have hne : other ≠ uf := by
        rintro rfl
        exact absurd (hset.symm.trans hother) (by decide)
      rw [hu, extend_fieldData_of_ne hne]
      exact h.unset other hother
  · refine ⟨fun other hother ↦ ?_, fun other hother ↦ ?_⟩
    · obtain rfl := Option.some.inj (hnew.symm.trans hother)
      rw [hu, extend_fieldSet, start_fieldSet, if_pos rfl]
    · rw [hu, extend_fieldSet, start_fieldSet] at hother
      by_cases hne : other = uf
      · rw [if_pos hne] at hother
        exact absurd hother (by decide)
      · rw [if_neg hne] at hother
        rw [hu, extend_fieldData_of_ne hne, start_fieldData_of_ne hne]
        exact h.unset other hother

theorem Recorded.loop {url : Bytes} {scan next : Scan} {index : ℕ} (h : Recorded scan)
    (hloop : scanLoop scan index url = some next) : Recorded next := by
  induction url generalizing scan index with
  | nil => exact Option.some.inj hloop ▸ h
  | cons ch rest ih =>
    obtain ⟨middle, hstep, hrest⟩ := Option.bind_eq_some_iff.mp hloop
    exact ih (h.step hstep) hrest

theorem recorded_scanStart : Recorded scanStart :=
  ⟨fun _ h ↦ absurd h nofun, fun _ _ ↦ rfl⟩

/-- The second machine sets the bits of its own fields only. -/
theorem hostField_fieldSet_host (u : HttpParserUrl) (s next : HostState) (index : ℕ) :
    (hostField u s next index).fieldSet .host = u.fieldSet .host := by
  have hstart (own : HostState) (uf : Field) (hne : Field.host ≠ uf) :
      (if s ≠ own then (u.start uf index).extend uf else u.extend uf).fieldSet .host =
        u.fieldSet .host := by
    split
    · rw [extend_fieldSet, start_fieldSet, if_neg hne]
    · rfl
  cases next with
  | port => exact hstart .port .port (by decide)
  | userinfo => exact hstart .userinfo .userinfo (by decide)
  | _ => rfl

theorem hostLoop_fieldSet_host {chars : Bytes} {u v : HttpParserUrl} {s last : HostState}
    {index : ℕ} (h : hostLoop u s index chars = some (v, last)) :
    v.fieldSet .host = u.fieldSet .host := by
  induction chars generalizing u s index with
  | nil =>
    obtain ⟨rfl, -⟩ := Prod.mk.inj (Option.some.inj h)
    rfl
  | cons ch rest ih =>
    rw [hostLoop] at h
    split at h
    · cases h
    · rw [ih h, hostField_fieldSet_host]

theorem httpParseHost_fieldSet_host {mem : Bytes} {u v : HttpParserUrl} {foundAt : Bool}
    (h : httpParseHost mem u foundAt = some (some v)) : v.fieldSet .host = u.fieldSet .host := by
  obtain ⟨chars, -, hrest⟩ := Option.bind_eq_some_iff.mp h
  split at hrest
  · next w last hloop =>
    split at hrest
    · exact absurd hrest nofun
    · obtain rfl := Option.some.inj (Option.some.inj hrest)
      exact (hostLoop_fieldSet_host hloop).trans rfl
  · exact absurd hrest nofun

theorem parsePort_fields {mem : Bytes} {u v : HttpParserUrl}
    (h : parsePort mem u = some (some v)) :
    v.fieldSet = u.fieldSet ∧ v.fieldData = u.fieldData := by
  unfold parsePort at h
  split at h
  · obtain ⟨digits, -, hrest⟩ := Option.bind_eq_some_iff.mp h
    split at hrest
    · obtain rfl := Option.some.inj (Option.some.inj hrest)
      exact ⟨rfl, rfl⟩
    · exact absurd hrest nofun
  · obtain rfl := Option.some.inj (Option.some.inj h)
    exact ⟨rfl, rfl⟩

/-- Without the bit of the host there are no bytes of a host. -/
theorem slice_host_of_unset {url : Bytes} {u : HttpParserUrl} (h : parse url = some u)
    (hunset : u.fieldSet .host = false) : u.slice .host url = [] := by
  obtain ⟨scan, hscan, hfinish⟩ := parse_cases h
  have hrecorded := recorded_scanStart.loop hscan
  cases hhost : scan.u.fieldSet .host with
  | true =>
    rw [finish_of_host hhost] at hfinish
    obtain ⟨middle, hmiddle, hport⟩ := Option.bind_eq_some_iff.mp hfinish
    cases middle with
    | none => exact absurd hport nofun
    | some v =>
      rw [(parsePort_fields hport).1, httpParseHost_fieldSet_host hmiddle, hhost] at hunset
      exact absurd hunset (by decide)
  | false =>
    rw [finish_of_noHost hhost] at hfinish
    split at hfinish
    · exact absurd hfinish nofun
    · rw [HttpParserUrl.slice, (parsePort_fields hfinish).2, hrecorded.unset .host hhost,
        List.take_zero]

/-! ## The bytes of the fields -/

/-- Every length is kept in 16 bits. -/
def Narrow (u : HttpParserUrl) : Prop := ∀ uf, (u.fieldData uf).len < 2 ^ 16

theorem Narrow.update {u v : HttpParserUrl} {uf : Field} (h : Narrow u)
    (hself : (v.fieldData uf).len < 2 ^ 16)
    (hother : ∀ other, other ≠ uf → v.fieldData other = u.fieldData other) : Narrow v := by
  intro other
  by_cases heq : other = uf
  · rw [heq]
    exact hself
  · rw [hother other heq]
    exact h other

theorem Narrow.extend {u : HttpParserUrl} (h : Narrow u) (uf : Field) : Narrow (u.extend uf) := by
  refine @Narrow.update _ _ uf h ?_ fun other hother ↦ extend_fieldData_of_ne hother u
  rw [extend_fieldData_self]
  exact Nat.mod_lt _ (by norm_num)

theorem Narrow.start {u : HttpParserUrl} (h : Narrow u) (uf : Field) (index : ℕ) :
    Narrow (u.start uf index) := by
  refine @Narrow.update _ _ uf h ?_ fun other hother ↦ start_fieldData_of_ne hother u index
  rw [start_fieldData_self]
  norm_num

theorem scanLoop_narrow {url : Bytes} {scan next : Scan} {index : ℕ}
    (h : scanLoop scan index url = some next) (hnarrow : Narrow scan.u) : Narrow next.u := by
  induction url generalizing scan index with
  | nil => exact Option.some.inj h ▸ hnarrow
  | cons ch rest ih =>
    obtain ⟨middle, hstep, hrest⟩ := Option.bind_eq_some_iff.mp h
    refine ih hrest ?_
    obtain ⟨-, ⟨hu, -⟩ | ⟨uf, ⟨-, -, hu⟩ | ⟨-, -, hu⟩⟩⟩ := scanStep_cases hstep
    · rw [hu]
      exact hnarrow
    · rw [hu]
      exact hnarrow.extend uf
    · rw [hu]
      exact (hnarrow.start uf index).extend uf

theorem Narrow.hostField {u : HttpParserUrl} (h : Narrow u) (s next : HostState) (index : ℕ) :
    Narrow (hostField u s next index) := by
  have hhost (own : HostState) : Narrow (hostField.extendHost u s index own) := by
    refine Narrow.extend (@Narrow.update u _ .host h ?_ fun other hother ↦ ?_) .host
    · dsimp only
      rw [Function.update_self]
      split
      · exact h .host
      · exact h .host
    · exact Function.update_of_ne hother _ _
  have hother (own : HostState) (uf : Field) :
      Narrow (if s ≠ own then (u.start uf index).extend uf else u.extend uf) := by
    split
    · exact (h.start uf index).extend uf
    · exact h.extend uf
  cases next with
  | host => exact hhost .host
  | v6 => exact hhost .v6
  | v6ZoneStart => exact h.extend .host
  | v6Zone => exact h.extend .host
  | port => exact hother .port .port
  | userinfo => exact hother .userinfo .userinfo
  | _ => exact h

theorem hostLoop_narrow {chars : Bytes} {u v : HttpParserUrl} {s last : HostState} {index : ℕ}
    (h : hostLoop u s index chars = some (v, last)) (hnarrow : Narrow u) : Narrow v := by
  induction chars generalizing u s index with
  | nil =>
    obtain ⟨rfl, -⟩ := Prod.mk.inj (Option.some.inj h)
    exact hnarrow
  | cons ch rest ih =>
    rw [hostLoop] at h
    split at h
    · cases h
    · exact ih h (hnarrow.hostField s _ index)

theorem httpParseHost_narrow {mem : Bytes} {u v : HttpParserUrl} {foundAt : Bool}
    (h : httpParseHost mem u foundAt = some (some v)) (hnarrow : Narrow u) : Narrow v := by
  obtain ⟨chars, -, hrest⟩ := Option.bind_eq_some_iff.mp h
  split at hrest
  · next w last hloop =>
    split at hrest
    · cases hrest
    · obtain rfl := Option.some.inj (Option.some.inj hrest)
      refine hostLoop_narrow hloop (@Narrow.update u _ .host hnarrow ?_ fun other hother ↦ ?_)
      · dsimp only
        rw [Function.update_self]
        norm_num
      · exact Function.update_of_ne hother _ _
  · cases hrest

theorem parse_narrow {url : Bytes} {u : HttpParserUrl} (h : parse url = some u) : Narrow u := by
  obtain ⟨scan, hscan, hfinish⟩ := parse_cases h
  have hnarrow : Narrow scan.u := by
    refine scanLoop_narrow hscan fun uf ↦ ?_
    exact show 0 < 2 ^ 16 by norm_num
  have hport {v : HttpParserUrl} (hv : Narrow v) (hparse : parsePort url v = some (some u)) :
      Narrow u := fun uf ↦ by
    rw [(parsePort_fields hparse).2]
    exact hv uf
  cases hhost : scan.u.fieldSet .host with
  | true =>
    rw [finish_of_host hhost] at hfinish
    obtain ⟨middle, hmiddle, hparse⟩ := Option.bind_eq_some_iff.mp hfinish
    cases middle with
    | none => cases hparse
    | some v => exact hport (httpParseHost_narrow hmiddle hnarrow) hparse
  | false =>
    rw [finish_of_noHost hhost] at hfinish
    split at hfinish
    · cases hfinish
    · exact hport hnarrow hfinish

/-- A character that no state accepts is in no field. -/
theorem notMem_slice {bad : UInt8} (hbad : ∀ s, parseUrlChar s bad = .dead) {url : Bytes}
    {u : HttpParserUrl} (h : parse url = some u) (uf : Field) : bad ∉ u.slice uf url := by
  obtain ⟨scan, hscan, -⟩ := parse_cases h
  exact fun hmem ↦ notMem_of_scanLoop hbad hscan (List.mem_of_mem_drop (List.mem_of_mem_take hmem))

theorem slice_length_lt {url : Bytes} {u : HttpParserUrl} (h : parse url = some u) (uf : Field) :
    (u.slice uf url).length < 2 ^ 16 :=
  (List.length_take_le _ _).trans_lt (parse_narrow h uf)

/-! ## Runs of characters -/

/-- The field that a character belongs to, by the state that it leads to. -/
def fieldOf : State → Option Field
  | .schema => some .schema
  | .serverWithAt => some .host
  | .server => some .host
  | .path => some .path
  | .queryString => some .query
  | .fragment => some .fragment
  | _ => none

/-- The states that the loop goes on in, but for the one that notes an `@`. -/
def Goes (s : State) : Prop := s ∉ [State.dead, .spacesBeforeUrl, .serverWithAt]

instance (s : State) : Decidable (Goes s) := inferInstanceAs (Decidable (s ∉ _))

theorem scanStep_of_goes {scan : Scan} {index : ℕ} {ch : UInt8} {s : State}
    (hs : parseUrlChar scan.s ch = s) (hgoes : Goes s) :
    scanStep scan index ch =
      match fieldOf s with
      | some uf => some (({ scan with s := s } : Scan).enter uf index)
      | none => some { scan with s := s } := by
  unfold scanStep
  rw [hs]
  cases s with
  | dead => exact absurd hgoes (by decide)
  | spacesBeforeUrl => exact absurd hgoes (by decide)
  | serverWithAt => exact absurd hgoes (by decide)
  | _ => rfl

theorem scanLoop_append (scan : Scan) (index : ℕ) (first second : Bytes) :
    scanLoop scan index (first ++ second) =
      (scanLoop scan index first).bind fun next ↦ scanLoop next (index + first.length) second := by
  induction first generalizing scan index with
  | nil => rfl
  | cons ch first ih =>
    have hindex : index + 1 + first.length = index + (first.length + 1) := by omega
    simp only [List.cons_append, scanLoop, Option.bind_eq_bind, Option.bind_assoc, ih, hindex,
      List.length_cons]

/-- A field that has been entered takes all characters that keep its state. -/
theorem scanLoop_run {text : Bytes} {scan : Scan} {index : ℕ} {uf : Field}
    (hgoes : Goes scan.s) (hfield : fieldOf scan.s = some uf) (hold : scan.oldUf = some uf)
    (hkeep : ∀ ch ∈ text, parseUrlChar scan.s ch = scan.s)
    (hlt : (scan.u.fieldData uf).len + text.length < 2 ^ 16) :
    ∃ next, scanLoop scan index text = some next ∧ next.s = scan.s ∧ next.oldUf = some uf ∧
      next.foundAt = scan.foundAt ∧ next.u.fieldSet = scan.u.fieldSet ∧
      next.u.fieldData uf =
        ⟨(scan.u.fieldData uf).off, (scan.u.fieldData uf).len + text.length⟩ ∧
      ∀ other, other ≠ uf → next.u.fieldData other = scan.u.fieldData other := by
  induction text generalizing scan index with
  | nil => exact ⟨scan, rfl, rfl, hold, rfl, rfl, rfl, fun _ _ ↦ rfl⟩
  | cons ch text ih =>
    rw [List.length_cons] at hlt
    have hnext : scanStep scan index ch = some { scan with u := scan.u.extend uf } := by
      rw [scanStep_of_goes (hkeep ch List.mem_cons_self) hgoes, hfield]
      dsimp only [Scan.enter]
      rw [if_pos hold]
    have hlen : ((scan.u.extend uf).fieldData uf).len = (scan.u.fieldData uf).len + 1 := by
      rw [extend_fieldData_self]
      exact u16_of_lt (by omega)
    have hoff : ((scan.u.extend uf).fieldData uf).off = (scan.u.fieldData uf).off := by
      rw [extend_fieldData_self]
    have hroom : ((scan.u.extend uf).fieldData uf).len + text.length < 2 ^ 16 := by
      rw [hlen]
      omega
    obtain ⟨next, hloop, hs, hnew, hfound, hset, hdata, hothers⟩ :=
      @ih { scan with u := scan.u.extend uf } (index + 1) hgoes hfield hold
        (fun other hmem ↦ hkeep other (List.mem_cons_of_mem _ hmem)) hroom
    refine ⟨next, ?_, hs, hnew, hfound, hset, ?_, fun other hother ↦ ?_⟩
    · rw [scanLoop, hnext]
      exact hloop
    · rw [hdata, hlen, hoff, List.length_cons]
      congr 1
      omega
    · rw [hothers other hother]
      exact extend_fieldData_of_ne hother _

/-- While the states stay in a class, the fields that no state of the class belongs to are kept. -/
theorem scanLoop_frame {states : List State} {text : Bytes} (hgoes : ∀ s ∈ states, Goes s)
    (hclosed : ∀ s ∈ states, ∀ ch ∈ text, parseUrlChar s ch ∈ states) {scan : Scan} {index : ℕ}
    (hs : scan.s ∈ states) :
    ∃ next, scanLoop scan index text = some next ∧ next.foundAt = scan.foundAt ∧
      ∀ uf, (∀ s ∈ states, fieldOf s ≠ some uf) →
        next.u.fieldData uf = scan.u.fieldData uf ∧ next.u.fieldSet uf = scan.u.fieldSet uf := by
  induction text generalizing scan index with
  | nil => exact ⟨scan, rfl, rfl, fun _ _ ↦ ⟨rfl, rfl⟩⟩
  | cons ch text ih =>
    have hmem := hclosed scan.s hs ch List.mem_cons_self
    have hstep : ∃ middle, scanStep scan index ch = some middle ∧ middle.s ∈ states ∧
        middle.foundAt = scan.foundAt ∧ ∀ uf, (∀ s ∈ states, fieldOf s ≠ some uf) →
          middle.u.fieldData uf = scan.u.fieldData uf ∧
            middle.u.fieldSet uf = scan.u.fieldSet uf := by
      rw [scanStep_of_goes rfl (hgoes _ hmem)]
      cases hfield : fieldOf (parseUrlChar scan.s ch) with
      | none => exact ⟨_, rfl, hmem, rfl, fun _ _ ↦ ⟨rfl, rfl⟩⟩
      | some uf =>
        refine ⟨_, rfl, ?_⟩
        unfold Scan.enter
        split
        · refine ⟨hmem, rfl, fun other hother ↦ ⟨extend_fieldData_of_ne ?_ _, rfl⟩⟩
          rintro rfl
          exact hother _ hmem hfield
        · refine ⟨hmem, rfl, fun other hother ↦ ?_⟩
          have hne : other ≠ uf := by
            rintro rfl
            exact hother _ hmem hfield
          refine ⟨?_, ?_⟩
          · rw [extend_fieldData_of_ne hne, start_fieldData_of_ne hne]
          · rw [extend_fieldSet, start_fieldSet, if_neg hne]
    obtain ⟨middle, hmiddle, hin, hfound, hkept⟩ := hstep
    obtain ⟨next, hloop, hfound', hkept'⟩ :=
      @ih (fun s hs ch hch ↦ hclosed s hs ch (List.mem_cons_of_mem _ hch)) middle (index + 1) hin
    refine ⟨next, ?_, hfound'.trans hfound, fun uf huf ↦ ?_⟩
    · rw [scanLoop, hmiddle]
      exact hloop
    · exact ⟨(hkept' uf huf).1.trans (hkept uf huf).1, (hkept' uf huf).2.trans (hkept uf huf).2⟩

/-! ## Plain hosts -/

/-- A host that is neither in brackets nor followed by a port. -/
theorem hostLoop_run {chars : Bytes} (hchars : ∀ ch ∈ chars, isHostChar ch = true)
    {u : HttpParserUrl} {index off len : ℕ} (hdata : u.fieldData .host = ⟨off, len⟩)
    (hlt : len + chars.length < 2 ^ 16) :
    hostLoop u .host index chars =
      some ({ u with fieldData := Function.update u.fieldData .host ⟨off, len + chars.length⟩ },
        .host) := by
  induction chars generalizing u index len with
  | nil =>
    have hsame : Function.update u.fieldData .host ⟨off, len⟩ = u.fieldData := by
      rw [← hdata, Function.update_eq_self]
    rw [hostLoop, List.length_nil, Nat.add_zero, hsame]
  | cons ch chars ih =>
    have hch := hchars ch List.mem_cons_self
    have hnext : httpParseHostChar .host ch = .host := if_pos hch
    have hfield : hostField u .host .host index =
        { u with fieldData := Function.update u.fieldData .host ⟨off, len + 1⟩ } := by
      have hlen : u16 (len + 1) = len + 1 := u16_of_lt (by rw [List.length_cons] at hlt; omega)
      dsimp only [hostField, hostField.extendHost, HttpParserUrl.extend]
      simp [hdata, hlen]
    have hroom : len + 1 + chars.length < 2 ^ 16 := by
      rw [List.length_cons] at hlt
      omega
    have htotal : len + 1 + chars.length = len + (ch :: chars).length := by
      rw [List.length_cons]
      omega
    rw [hostLoop, hnext, if_neg (by decide), hfield,
      ih (fun other hmem ↦ hchars other (List.mem_cons_of_mem _ hmem)) (by simp) hroom]
    simp only [Function.update_idem, htotal]

/-- A URL with a plain host keeps the fields of the first machine. -/
theorem parse_of_plainHost {url : Bytes} {scan : Scan}
    (hscan : scanLoop scanStart 0 url = some scan) (hset : scan.u.fieldSet .host = true)
    (hport : scan.u.fieldSet .port = false) (hfound : scan.foundAt = false)
    (hplain : ∀ ch ∈ scan.u.slice .host url, isHostChar ch = true)
    (hne : scan.u.slice .host url ≠ []) (hlt : url.length < 2 ^ 16) :
    parse url = some scan.u := by
  have hinside : Inside scan.u url.length := by
    have hstart : Inside scanStart.u 0 := fun _ ↦ le_rfl
    simpa using scanLoop_inside hscan hstart
  have hdata := hinside .host
  obtain ⟨ch, chars, hslice⟩ := List.exists_cons_of_ne_nil hne
  have hlength : chars.length + 1 = (scan.u.fieldData .host).len := by
    have htake := congrArg List.length hslice
    rw [HttpParserUrl.slice, List.length_take, List.length_drop, List.length_cons] at htake
    omega
  have hch : isHostChar ch = true := hplain ch (hslice ▸ List.mem_cons_self)
  have hnext : httpParseHostChar .hostStart ch = .host := by
    have hbracket : ch ≠ 91 := by
      rintro rfl
      exact absurd hch (by decide)
    rw [httpParseHostChar, if_neg hbracket, if_pos hch]
  have hread : readBytes url (scan.u.fieldData .host).off (scan.u.fieldData .host).len =
      some (ch :: chars) := by
    have happend := readBytes_append hdata []
    rw [List.append_nil] at happend
    rw [happend, ← hslice]
    rfl
  have hself : Function.update scan.u.fieldData .host (scan.u.fieldData .host) =
      scan.u.fieldData :=
    Function.update_eq_self _ _
  have hhost : httpParseHost url scan.u false = some (some scan.u) := by
    have hu16 : u16 (scan.u.fieldData .host).off = (scan.u.fieldData .host).off :=
      u16_of_lt (by omega)
    have hone : u16 (0 + 1) = 1 := rfl
    have hrest (other : UInt8) (hmem : other ∈ chars) : isHostChar other = true :=
      hplain other (hslice ▸ List.mem_cons_of_mem _ hmem)
    have hrun := @hostLoop_run chars hrest
      { scan.u with
          fieldData := Function.update scan.u.fieldData .host ⟨(scan.u.fieldData .host).off, 1⟩ }
      ((scan.u.fieldData .host).off + 1) (scan.u.fieldData .host).off 1 (by simp) (by omega)
    have htotal : 1 + chars.length = (scan.u.fieldData .host).len := by omega
    simp only [Function.update_idem, htotal, hself] at hrun
    unfold httpParseHost
    simp only [hread, Option.bind_eq_bind, Option.bind_some, hostLoop, hnext, hostField,
      hostField.extendHost, HttpParserUrl.extend, Bool.false_eq_true, if_false, reduceCtorEq,
      Function.update_self, Function.update_idem, hu16, hone, ne_eq, not_false_eq_true, if_true,
      hrun]
    rfl
  have hfinish : finish url false scan = some (some scan.u) := by
    rw [finish_of_host hset, hfound, hhost, Option.bind_some]
    exact if_neg (by simp [hport])
  have hnil : url ≠ [] := by
    rintro rfl
    obtain rfl := Option.some.inj hscan
    exact absurd hset (by decide)
  have heq := httpParserParseUrl_eq hnil []
  rw [List.append_nil, hscan, Option.elim_some, hfinish] at heq
  rw [parse, heq]
  rfl

end LibYtdl.Net.UrlFields
