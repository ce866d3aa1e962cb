import LibYtdl.Foundation.Machine
import LibYtdl.Foundation.Search

/-!
# The URL parser

`http_parser_parse_url` runs a state machine over the characters of a URL and notes where each
component starts and how long it is, in 16 bits each. The host is then taken apart by a second
machine, which knows of user information, of addresses in brackets and of ports.
-/

namespace LibYtdl.Net.UrlParser

open Machine Search

/-! ## Characters -/

/-- `normal_url_char`, one bit a character. -/
def normalUrlChar : List UInt8 :=
  [0, 0, 0, 0, 246, 255, 255, 127, 255, 255, 255, 255, 255, 255, 255, 127,
    0, 0, 0, 0, 0, 0, 0, 0, 0, 0, 0, 0, 0, 0, 0, 0]

/-- `BIT_AT`. -/
def bitAt (table : List UInt8) (ch : UInt8) : Bool :=
  (table.getD (ch >>> 3).toNat 0 &&& (1 <<< (ch &&& 7))) ≠ 0

/-- `LOWER`. -/
def lower (ch : UInt8) : UInt8 := ch ||| 32

def isAlpha (ch : UInt8) : Bool := 97 ≤ lower ch ∧ lower ch ≤ 122

def isNum (ch : UInt8) : Bool := 48 ≤ ch ∧ ch ≤ 57

def isAlphanum (ch : UInt8) : Bool := isAlpha ch || isNum ch

def isHex (ch : UInt8) : Bool := isNum ch || (97 ≤ lower ch ∧ lower ch ≤ 102)

/-- `IS_MARK`: one of `-_.!~*'()`. -/
def isMark (ch : UInt8) : Bool := ch ∈ ascii "-_.!~*'()"

def isUserinfoChar (ch : UInt8) : Bool := isAlphanum ch || isMark ch || ch ∈ ascii "%;:&=+$,"

def isUrlChar (ch : UInt8) : Bool := bitAt normalUrlChar ch

def isHostChar (ch : UInt8) : Bool := isAlphanum ch || ch = 46 || ch = 45

/-! ## The machine for URLs -/

/-- The states of `enum state` that a URL is parsed in. -/
inductive State
  | dead
  | spacesBeforeUrl
  | schema
  | schemaSlash
  | schemaSlashSlash
  | serverStart
  | server
  | serverWithAt
  | path
  | queryStringStart
  | queryString
  | fragmentStart
  | fragment
  deriving DecidableEq

/-- `parse_url_char`. -/
def parseUrlChar (s : State) (ch : UInt8) : State :=
  if ch = 32 ∨ ch = 13 ∨ ch = 10 then .dead
  else match s with
  | .spacesBeforeUrl =>
    if ch = 47 ∨ ch = 42 then .path
    else if isAlpha ch then .schema
    else .dead
  | .schema =>
    if isAlpha ch then .schema
    else if ch = 58 then .schemaSlash
    else .dead
  | .schemaSlash => if ch = 47 then .schemaSlashSlash else .dead
  | .schemaSlashSlash => if ch = 47 then .serverStart else .dead
  | .serverWithAt => if ch = 64 then .dead else server ch
  | .serverStart => server ch
  | .server => server ch
  | .path =>
    if isUrlChar ch then .path
    else if ch = 63 then .queryStringStart
    else if ch = 35 then .fragmentStart
    else .dead
  | .queryStringStart => query ch
  | .queryString => query ch
  | .fragmentStart =>
    if isUrlChar ch ∨ ch = 63 then .fragment
    else if ch = 35 then .fragmentStart
    else .dead
  | .fragment => if isUrlChar ch ∨ ch = 63 ∨ ch = 35 then .fragment else .dead
  | .dead => .dead
where
  /-- The cases that `s_req_server` shares. -/
  server (ch : UInt8) : State :=
    if ch = 47 then .path
    else if ch = 63 then .queryStringStart
    else if ch = 64 then .serverWithAt
    else if isUserinfoChar ch ∨ ch = 91 ∨ ch = 93 then .server
    else .dead
  /-- The cases that `s_req_query_string` shares; another `?` belongs to the query. -/
  query (ch : UInt8) : State :=
    if isUrlChar ch ∨ ch = 63 then .queryString
    else if ch = 35 then .fragmentStart
    else .dead

/-- `enum http_parser_url_fields`. -/
inductive Field
  | schema
  | host
  | port
  | path
  | query
  | fragment
  | userinfo
  deriving DecidableEq

/-- An entry of `field_data`. -/
structure FieldData where
  off : ℕ
  len : ℕ
  deriving DecidableEq

/-- `struct http_parser_url`. -/
structure HttpParserUrl where
  fieldSet : Field → Bool
  port : ℕ
  fieldData : Field → FieldData

/-- `http_parser_url_init`. -/
def httpParserUrlInit : HttpParserUrl := ⟨fun _ ↦ false, 0, fun _ ↦ ⟨0, 0⟩⟩

/-- Conversion to `uint16_t`. -/
def u16 (value : ℕ) : ℕ := value % 2 ^ 16

namespace HttpParserUrl

/-- A field starts at an index of the URL, with no character yet. -/
def start (u : HttpParserUrl) (uf : Field) (index : ℕ) : HttpParserUrl :=
  { u with fieldData := Function.update u.fieldData uf ⟨u16 index, 0⟩
           fieldSet := Function.update u.fieldSet uf true }

/-- One more character of a field. -/
def extend (u : HttpParserUrl) (uf : Field) : HttpParserUrl :=
  { u with fieldData := Function.update u.fieldData uf
             ⟨(u.fieldData uf).off, u16 ((u.fieldData uf).len + 1)⟩ }

/-- The bytes of a field. -/
def slice (u : HttpParserUrl) (uf : Field) (url : Bytes) : Bytes :=
  (url.drop (u.fieldData uf).off).take (u.fieldData uf).len

end HttpParserUrl

/-- The variables of the loop in `http_parser_parse_url`; `oldUf` starts as `UF_MAX`. -/
structure Scan where
  s : State
  oldUf : Option Field
  foundAt : Bool
  u : HttpParserUrl

/-- A character that belongs to a field, at an index of the URL. -/
def Scan.enter (scan : Scan) (uf : Field) (index : ℕ) : Scan :=
  if scan.oldUf = some uf then { scan with u := scan.u.extend uf }
  else { scan with u := (scan.u.start uf index).extend uf, oldUf := some uf }

/-- One iteration; `none` is the return with 1. -/
def scanStep (scan : Scan) (index : ℕ) (ch : UInt8) : Option Scan :=
  let scan := { scan with s := parseUrlChar scan.s ch }
  match scan.s with
  | .dead => none
  | .schemaSlash => some scan
  | .schemaSlashSlash => some scan
  | .serverStart => some scan
  | .queryStringStart => some scan
  | .fragmentStart => some scan
  | .schema => some (scan.enter .schema index)
  | .serverWithAt => some ({ scan with foundAt := true }.enter .host index)
  | .server => some (scan.enter .host index)
  | .path => some (scan.enter .path index)
  | .queryString => some (scan.enter .query index)
  | .fragment => some (scan.enter .fragment index)
  | .spacesBeforeUrl => none

/-- The loop over the characters from an index on. -/
def scanLoop (scan : Scan) (index : ℕ) : Bytes → Option Scan
  | [] => some scan
  | ch :: rest => do
    let scan ← scanStep scan index ch
    scanLoop scan (index + 1) rest

/-! ## The machine for hosts -/

/-- `enum http_host_state`. -/
inductive HostState
  | dead
  | userinfoStart
  | userinfo
  | hostStart
  | v6Start
  | host
  | v6
  | v6End
  | v6ZoneStart
  | v6Zone
  | portStart
  | port
  deriving DecidableEq

/-- `http_parse_host_char`. -/
def httpParseHostChar : HostState → UInt8 → HostState
  | .userinfo, ch => userinfo ch
  | .userinfoStart, ch => userinfo ch
  | .hostStart, ch =>
    if ch = 91 then .v6Start
    else if isHostChar ch then .host
    else .dead
  | .host, ch =>
    if isHostChar ch then .host
    else if ch = 58 then .portStart
    else .dead
  | .v6End, ch => if ch = 58 then .portStart else .dead
  | .v6, ch =>
    if ch = 93 then .v6End
    else if isHex ch ∨ ch = 58 ∨ ch = 46 then .v6
    else if ch = 37 then .v6ZoneStart
    else .dead
  | .v6Start, ch => if isHex ch ∨ ch = 58 ∨ ch = 46 then .v6 else .dead
  | .v6Zone, ch => if ch = 93 then .v6End else zone ch
  | .v6ZoneStart, ch => zone ch
  | .port, ch => if isNum ch then .port else .dead
  | .portStart, ch => if isNum ch then .port else .dead
  | .dead, _ => .dead
where
  userinfo (ch : UInt8) : HostState :=
    if ch = 64 then .hostStart
    else if isUserinfoChar ch then .userinfo
    else .dead
  zone (ch : UInt8) : HostState :=
    if isAlphanum ch ∨ ch ∈ ascii "%.-_~" then .v6Zone else .dead

/-- The bookkeeping for the state that a character of the host leads to. -/
def hostField (u : HttpParserUrl) (s next : HostState) (index : ℕ) : HttpParserUrl :=
  match next with
  | .host => extendHost .host
  | .v6 => extendHost .v6
  | .v6ZoneStart => u.extend .host
  | .v6Zone => u.extend .host
  | .port => if s ≠ .port then (u.start .port index).extend .port else u.extend .port
  | .userinfo =>
    if s ≠ .userinfo then (u.start .userinfo index).extend .userinfo else u.extend .userinfo
  | _ => u
where
  /-- The host moves to where its own state is entered, and keeps the length it has. -/
  extendHost (own : HostState) : HttpParserUrl :=
    let data : FieldData :=
      if s ≠ own then ⟨u16 index, (u.fieldData .host).len⟩ else u.fieldData .host
    { u with fieldData := Function.update u.fieldData .host data }.extend .host

/-- The loop of `http_parse_host` over the characters from an index on; `none` is the return
with 1. -/
def hostLoop (u : HttpParserUrl) (s : HostState) (index : ℕ) :
    Bytes → Option (HttpParserUrl × HostState)
  | [] => some (u, s)
  | ch :: rest =>
    let next := httpParseHostChar s ch
    if next = .dead then none
    else hostLoop (hostField u s next index) next (index + 1) rest

/-- The states that a host must not end in. -/
def unfinished : HostState → Bool
  | .hostStart | .v6Start | .v6 | .v6ZoneStart | .v6Zone | .portStart | .userinfo
  | .userinfoStart => true
  | _ => false

/-- Consecutive bytes of the memory that starts with the URL. A read outside of it has no value. -/
def readBytes (mem : Bytes) (off len : ℕ) : Option Bytes :=
  if off + len ≤ mem.length then some ((mem.drop off).take len) else none

/-- `http_parse_host`; the inner `none` is the return with 1. -/
def httpParseHost (mem : Bytes) (u : HttpParserUrl) (foundAt : Bool) :
    Option (Option HttpParserUrl) := do
  let data := u.fieldData .host
  let u := { u with fieldData := Function.update u.fieldData .host ⟨data.off, 0⟩ }
  let s : HostState := if foundAt then .userinfoStart else .hostStart
  let chars ← readBytes mem data.off data.len
  let some (u, s) := hostLoop u s data.off chars | some none
  if unfinished s then some none else some (some u)

/-! ## The parser -/

/-- The loop that reads the port; a port above 65535 is a failure. -/
def portLoop (v : ℕ) : Bytes → Option ℕ
  | [] => some v
  | ch :: rest =>
    let v := v * 10 + (ch.toNat - 48)
    if v > 65535 then none else portLoop v rest

/-- The end of `http_parser_parse_url`. -/
def parsePort (mem : Bytes) (u : HttpParserUrl) : Option (Option HttpParserUrl) :=
  if u.fieldSet .port then do
    let digits ← readBytes mem (u.fieldData .port).off (u.fieldData .port).len
    let some v := portLoop 0 digits | some none
    some (some { u with port := u16 v })
  else some (some u)

/-- The fields that a URL for `CONNECT` must have, and no others. -/
def connectOnly (u : HttpParserUrl) : Bool :=
  u.fieldSet .host && u.fieldSet .port && !u.fieldSet .schema && !u.fieldSet .path &&
    !u.fieldSet .query && !u.fieldSet .fragment && !u.fieldSet .userinfo

/-- `http_parser_parse_url` behind its loop. -/
def finish (mem : Bytes) (isConnect : Bool) (scan : Scan) : Option (Option HttpParserUrl) :=
  if scan.u.fieldSet .schema ∧ ¬ scan.u.fieldSet .host then some none
  else do
    let some u ←
      if scan.u.fieldSet .host then httpParseHost mem scan.u scan.foundAt
      else some (some scan.u)
      | some none
    if isConnect ∧ ¬ connectOnly u then some none else parsePort mem u

/-- `http_parser_parse_url`; the inner `none` is the return with 1. -/
def httpParserParseUrl (mem : Bytes) (buflen : ℕ) (isConnect : Bool) (u : HttpParserUrl) :
    Option (Option HttpParserUrl) :=
  if buflen = 0 then some none
  else do
    let u := { u with port := 0, fieldSet := fun _ ↦ false }
    let s : State := if isConnect then .serverStart else .spacesBeforeUrl
    let url ← readBytes mem 0 buflen
    match scanLoop ⟨s, none, false, u⟩ 0 url with
    | none => some none
    | some scan => finish mem isConnect scan

end LibYtdl.Net.UrlParser
