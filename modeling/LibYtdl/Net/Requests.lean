import LibYtdl.Foundation.RequestHead

/-!
# The requests

`net.c` writes each request with `snprintf` into a buffer whose size is counted by hand: a constant
for the text of the format, and the lengths of what is put into it. A text that does not fit is cut
off without an error. An allocation that fails leaves an empty buffer.
-/

namespace LibYtdl.Net.Requests

open Machine Memory Search Decimal RequestHead

/-! ## Buffers and formats -/

/-- `malloc`: a null pointer, or an object of the size that was asked for. -/
structure Malloc where
  alloc : ℕ → Option (Object UInt8)
  size_of_alloc : ∀ {size object}, alloc size = some object → object.size = size

/-- `ytdl_buf_t`; a null `base` is `none`. -/
structure Buf where
  base : Option (Object UInt8)
  len : ℕ
  size : ℕ
  deriving DecidableEq

/-- What is written of a buffer. -/
def Buf.text (buf : Buf) : Bytes :=
  match buf.base with
  | none => []
  | some base => base.cells.take buf.len

/-- `ytdl_buf_alloc`. -/
def bufAlloc (malloc : Malloc) (size : ℕ) : Buf := ⟨malloc.alloc size, 0, size⟩

/-- `%s`. -/
def stringText (mem : Bytes) : Option Bytes :=
  if 0 ∈ mem then some (mem.takeWhile (· ≠ 0)) else none

/-- `%.*s`: a negative precision is no bound. -/
def precisionText (mem : Bytes) (precision : ℤ) : Option Bytes :=
  if precision < 0 then
    stringText mem
  else
    let text := (mem.take precision.toNat).takeWhile (· ≠ 0)
    if text.length = precision.toNat ∨ 0 ∈ mem then some text else none

/-- Writing over the start of an object does not change its size. -/
theorem length_overwrite (object : Object UInt8) {text : Bytes} (h : text.length ≤ object.size) :
    (text ++ object.cells.drop text.length).length < 2 ^ 63 := by
  have hlt := object.size_lt
  rw [Object.size] at h
  rw [List.length_append, List.length_drop]
  omega

/-- `snprintf`, for the text that the format writes. -/
def snprintf (object : Object UInt8) (n : ℕ) (text : Bytes) : Option (Object UInt8) :=
  let written := text.take (n - 1) ++ [0]
  if n = 0 then
    some object
  else if h : written.length ≤ object.size then
    some ⟨written ++ object.cells.drop written.length, length_overwrite object h⟩
  else
    none

/-- What the functions do with their formats: the buffer is allocated, written and measured. -/
def printRequest (malloc : Malloc) (bufSize : ℕ) (text : Option Bytes) : Option Buf :=
  let buf := bufAlloc malloc bufSize
  match buf.base with
  | none => some buf
  | some base => do
    let text ← text
    let base ← snprintf base bufSize text
    let len ← base.strlen
    some { buf with base := some base, len := len }

/-! ## The functions of `net.c` -/

/-- `YTDL_DL_USER_AGENT`. -/
def userAgent : Bytes :=
  ascii "Mozilla/5.0 " ++ (ascii "(Windows NT 10.0; Win64; x64) " ++ (ascii "AppleWebKit/537.36 " ++
    (ascii "(KHTML, like Gecko) " ++ (ascii "Chrome/91.0.4472.77 " ++ ascii "Safari/537.36"))))

/-- `sizeof(YTDL_DL_USER_AGENT)`. -/
def sizeofUserAgent : ℕ := userAgent.length + 1

/-- `YTDL_ID_LEN`. -/
def idLen : ℕ := 11

/-- `YTDL_DL_MAX_PLAYER_PATH`. -/
def maxPlayerPath : ℕ := 150

/-- `YTDL_DL_PLAYER_JS_REQUEST_SIZE`. -/
def playerJsRequestSize : ℕ := 94 + sizeofUserAgent + maxPlayerPath

/-- `ytdl_net_request_player_js`. -/
def requestPlayerJs (malloc : Malloc) (playerPath : Bytes) : Option Buf :=
  printRequest malloc playerJsRequestSize do
    let playerPath ← stringText playerPath
    some
      (ascii "GET " ++ playerPath ++ ascii " HTTP/1.1\r\n" ++
        ascii "Host: www.youtube.com\r\n" ++
        ascii "Connection: keep-alive\r\n" ++
        ascii "User-Agent: " ++ userAgent ++ ascii "\r\n" ++
        ascii "Accept: */*\r\n\r\n")

/-- `ytdl_net_request_innertube_player`. -/
def requestInnertubePlayer (malloc : Malloc) (id cver : Bytes) : Option Buf := do
  let strlen ← cver.findIdx? (· = 0)
  let contentLen := toInt (75 + idLen + strlen)
  printRequest malloc (sizeT (300 + contentLen)) do
    let cver ← stringText cver
    let id ← stringText id
    some
      (ascii "GET /youtubei/v1/player" ++ ascii "?key=AIzaSyAO_FJ2SlqU8Q4" ++
        ascii "STEHLGCilw_Y9_11qcW8" ++ ascii " HTTP/1.1\r\n" ++
        ascii "Host: www.youtube.com\r\n" ++
        ascii "Connection: keep-alive\r\n" ++
        ascii "User-Agent: " ++ userAgent ++ ascii "\r\n" ++
        ascii "Accept: */*\r\n" ++
        ascii "Content-Type: application/json\r\n" ++
        ascii "Content-Length: " ++ decimalInt contentLen ++ ascii "\r\n\r\n" ++
        ascii "\x7b\"context\":\x7b\"client\":\x7b" ++ ascii "\"clientName\":\"WEB\"," ++
        ascii "\"clientVersion\":\"" ++ cver ++ ascii "\"\x7d\x7d,\"videoId\":\"" ++ id ++
          ascii "\"\x7d")

/-- `ytdl_net_request_segment`. -/
def requestSegment (malloc : Malloc) (pathBuf : Bytes) (pathLen : ℕ) (segmentBuf : Bytes)
    (segmentLen : ℕ) (hostBuf : Bytes) (hostLen : ℕ) : Option Buf :=
  printRequest malloc (sizeT (85 + sizeofUserAgent + pathLen + hostLen + segmentLen)) do
    let path ← precisionText pathBuf (toInt pathLen)
    let segment ← precisionText segmentBuf (toInt segmentLen)
    let host ← precisionText hostBuf (toInt hostLen)
    some
      (ascii "GET " ++ path ++ segment ++ ascii " HTTP/1.1\r\n" ++
        ascii "Host: " ++ host ++ ascii "\r\n" ++
        ascii "Connection: keep-alive\r\n" ++
        ascii "User-Agent: " ++ userAgent ++ ascii "\r\n" ++
        ascii "Accept: */*\r\n\r\n")

end LibYtdl.Net.Requests
