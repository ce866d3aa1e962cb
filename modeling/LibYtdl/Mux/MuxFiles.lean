import LibYtdl.Foundation.Machine

/-!
# Muxing the downloads

`ytdl_mux_files` copies the audio stream of one file and the video stream of another into an output
file. What the calls of FFmpeg return is a parameter: every call may fail, and every single write of
a packet. The end of an input and an error of a write stop a stream in the same way, and the result
of opening the output is not kept, so the function reports success when packets are missing.
-/

namespace LibYtdl.Mux.MuxFiles

open Machine

/-- `AVERROR_EOF`. -/
def averrorEof : ℤ := -541478725

/-- `AVERROR_UNKNOWN`. -/
def averrorUnknown : ℤ := -1313558101

structure Packet where
  streamIndex : ℕ
  pts : ℤ
  data : Bytes
  deriving DecidableEq

/-- The values of `codec_type` that are looked for. -/
inductive MediaType
  | audio
  | video
  | other
  deriving DecidableEq

/-- An input file, with what the calls about it return. -/
structure Input where
  openInput : ℤ
  findStreamInfo : ℤ
  streams : List MediaType
  newStream : Bool
  parametersCopy : ℤ
  packets : List Packet

/-- What the calls of FFmpeg return; `writeFrame` numbers the calls of
`av_interleaved_write_frame`. -/
structure Ffmpeg where
  allocOutput : Bool
  audio : Input
  video : Input
  noFile : Bool
  avioOpen : ℤ
  writeHeader : ℤ
  compareTs : ℤ → ℤ → ℤ
  rescaleTs : ℕ → Packet → Packet
  writeFrame : ℕ → ℤ
  writeTrailer : ℤ

/-- The copy of one stream: whether it goes on, the last timestamp, the packets of the input that
are left, and those that were written. -/
structure Track where
  encode : Bool
  nextPts : ℤ
  rest : List Packet
  written : List Packet
  deriving DecidableEq

/-- The packet as it is written to the stream `idx` of the output. -/
def outPacket (env : Ffmpeg) (idx : ℕ) (packet : Packet) : Packet :=
  env.rescaleTs idx { packet with streamIndex := idx }

/-- `ytdl__mux_write_frame`, with its return value as the new `encode`. `calls` counts the packets
that were handed to `av_interleaved_write_frame`. -/
def muxWriteFrame (env : Ffmpeg) (st idx : ℕ) (track : Track) (calls : ℕ) : Track × ℕ :=
  match track.rest with
  | [] => ({ track with encode := false }, calls)
  | packet :: rest =>
    if packet.streamIndex ≠ st then
      ({ track with encode := true, rest := rest }, calls)
    else
      let packet := outPacket env idx packet
      if env.writeFrame calls < 0 then
        ({ track with encode := false, nextPts := packet.pts, rest := rest }, calls + 1)
      else
        ({ encode := true
           nextPts := packet.pts
           rest := rest
           written := track.written ++ [packet] }, calls + 1)

structure Loop where
  audio : Track
  video : Track
  calls : ℕ
  deriving DecidableEq

/-- One round of the loop of `ytdl_mux_files`. -/
def muxRound (env : Ffmpeg) (audioSt videoSt : ℕ) (loop : Loop) : Loop :=
  if loop.audio.encode ∧
      (loop.video.encode = false ∨ env.compareTs loop.audio.nextPts loop.video.nextPts ≤ 0) then
    let (audio, calls) := muxWriteFrame env audioSt 0 loop.audio loop.calls
    { loop with audio := audio, calls := calls }
  else
    let (video, calls) := muxWriteFrame env videoSt 1 loop.video loop.calls
    { loop with video := video, calls := calls }

/-- The loop, for at most `fuel` rounds. -/
def muxLoop (env : Ffmpeg) (audioSt videoSt : ℕ) : ℕ → Loop → Loop
  | 0, loop => loop
  | fuel + 1, loop =>
    if loop.audio.encode ∨ loop.video.encode then
      muxLoop env audioSt videoSt fuel (muxRound env audioSt videoSt loop)
    else
      loop

/-- The loop as it starts. Every round but two takes a packet from an input. -/
def Loop.start (env : Ffmpeg) : Loop where
  audio := ⟨true, 0, env.audio.packets, []⟩
  video := ⟨true, 0, env.video.packets, []⟩
  calls := 0

def loopFuel (env : Ffmpeg) : ℕ := env.audio.packets.length + env.video.packets.length + 2

/-- What a call of `ytdl_mux_files` did, with the value it returns. -/
structure Outcome where
  ret : ℤ
  opened : Bool
  header : Bool
  audio : List Packet
  video : List Packet
  trailer : Bool
  deriving DecidableEq

/-- The label `exit_1`. -/
def exitValue (ret : ℤ) : ℤ := if ret < 0 ∧ ret ≠ averrorEof then ret else 0

/-- Leaving before anything is written. -/
def Outcome.failed (ret : ℤ) : Outcome := ⟨exitValue ret, false, false, [], [], false⟩

/-- The search for the stream to copy, with the stream that is added to the output: the index of
the stream, or the value of `ret`. -/
def selectStream (type : MediaType) (input : Input) : Except ℤ ℕ :=
  match input.streams.findIdx? (· = type) with
  | none => .error averrorUnknown
  | some index =>
    if !input.newStream then .error averrorUnknown
    else if input.parametersCopy < 0 then .error input.parametersCopy
    else .ok index

/-- Opening an input and selecting its stream. -/
def openStream (type : MediaType) (input : Input) : Except ℤ ℕ :=
  if input.openInput < 0 then .error input.openInput
  else if input.findStreamInfo < 0 then .error input.findStreamInfo
  else selectStream type input

/-- The part of `ytdl_mux_files` after both streams have been selected. The result of `avio_open`
is not stored in `ret`. -/
def muxStreams (env : Ffmpeg) (audioSt videoSt : ℕ) : Outcome :=
  let opened := env.noFile || decide (0 ≤ env.avioOpen)
  if env.writeHeader < 0 then
    { Outcome.failed env.writeHeader with opened := opened }
  else
    let loop := muxLoop env audioSt videoSt (loopFuel env) (Loop.start env)
    { ret := exitValue env.writeTrailer
      opened := opened
      header := true
      audio := loop.audio.written
      video := loop.video.written
      trailer := decide (0 ≤ env.writeTrailer) }

/-- `ytdl_mux_files`. -/
def muxFiles (env : Ffmpeg) : Outcome :=
  if !env.allocOutput then
    .failed averrorUnknown
  else
    match openStream .audio env.audio with
    | .error ret => .failed ret
    | .ok audioSt =>
      match openStream .video env.video with
      | .error ret => .failed ret
      | .ok videoSt => muxStreams env audioSt videoSt

/-- The two temporary files. -/
inductive TempFile
  | audio
  | video
  deriving DecidableEq

/-- `ytdl__mux_and_free`: what is unlinked. The value of `ytdl_mux_files` is not looked at. -/
def muxAndFree (isDebug : Bool) (env : Ffmpeg) : Outcome × List TempFile :=
  (muxFiles env, if !isDebug then [.audio, .video] else [])

/-! ## What the calls have to return -/

/-- The packets of the stream of an input that is copied, the first one of its type. -/
def streamPackets (type : MediaType) (input : Input) : List Packet :=
  match input.streams.findIdx? (· = type) with
  | none => []
  | some index => input.packets.filter (·.streamIndex = index)

/-- The output was opened, and the header, every packet of both streams and the trailer were
written without error. -/
structure Complete (env : Ffmpeg) (outcome : Outcome) : Prop where
  opened : outcome.opened = true
  header : outcome.header = true
  audio : outcome.audio = (streamPackets .audio env.audio).map (outPacket env 0)
  video : outcome.video = (streamPackets .video env.video).map (outPacket env 1)
  trailer : outcome.trailer = true

/-- The results about an input that are checked, in order. A null pointer or a missing stream
stands for `AVERROR_UNKNOWN`. -/
def streamChecks (type : MediaType) (input : Input) : List ℤ :=
  [input.openInput, input.findStreamInfo] ++
    match input.streams.findIdx? (· = type) with
    | none => [averrorUnknown]
    | some _ => [if input.newStream then 0 else averrorUnknown, input.parametersCopy]

/-- The results that are checked, in order. -/
def checks (env : Ffmpeg) : List ℤ :=
  (if env.allocOutput then 0 else averrorUnknown) ::
    (streamChecks .audio env.audio ++
      (streamChecks .video env.video ++ [env.writeHeader, env.writeTrailer]))

/-- The first error among the results that are checked. -/
def firstError (env : Ffmpeg) : Option ℤ := (checks env).find? (· < 0)

/-- The number of packets to write. -/
def packetCount (env : Ffmpeg) : ℕ :=
  (streamPackets .audio env.audio).length + (streamPackets .video env.video).length

/-- No call fails that the output needs. -/
structure Flawless (env : Ffmpeg) : Prop where
  checked : firstError env = none
  opened : env.noFile = true ∨ 0 ≤ env.avioOpen
  writes : ∀ call < packetCount env, 0 ≤ env.writeFrame call

section Proofs

variable {env : Ffmpeg} {type : MediaType} {input : Input} {index : ℕ}

/-! ## The results that are checked -/

theorem openStream_ok {index : ℕ} (h : openStream type input = .ok index) :
    (streamChecks type input).find? (· < 0) = none ∧
      streamPackets type input = input.packets.filter (·.streamIndex = index) := by
  simp only [openStream, selectStream] at h
  simp only [streamChecks, streamPackets]
  cases hfind : input.streams.findIdx? (· = type) with
  | none =>
    rw [hfind] at h
    dsimp only at h
    split_ifs at h
  | some found =>
    rw [hfind] at h
    dsimp only at h
    split_ifs at h with hopen hinfo hnew hcopy
    obtain rfl : found = index := by simpa using h
    simp_all

theorem openStream_error {ret : ℤ} (h : openStream type input = .error ret) :
    (streamChecks type input).find? (· < 0) = some ret := by
  simp only [openStream, selectStream] at h
  simp only [streamChecks]
  have hunknown : averrorUnknown < 0 := by decide
  cases hfind : input.streams.findIdx? (· = type) with
  | none =>
    rw [hfind] at h
    dsimp only at h
    split_ifs at h with hopen hinfo <;> simp_all [List.find?_cons]
  | some found =>
    rw [hfind] at h
    dsimp only at h
    split_ifs at h with hopen hinfo hnew hcopy <;> simp_all [List.find?_cons]

/-- A run that gets to the streams has passed every check before. -/
theorem muxFiles_of_selected {audioSt videoSt : ℕ} (halloc : env.allocOutput = true)
    (haudio : openStream .audio env.audio = .ok audioSt)
    (hvideo : openStream .video env.video = .ok videoSt) :
    muxFiles env = muxStreams env audioSt videoSt ∧
      firstError env = [env.writeHeader, env.writeTrailer].find? (· < 0) := by
  constructor
  · simp [muxFiles, halloc, haudio, hvideo]
  · simp [firstError, checks, halloc, List.find?_append, (openStream_ok haudio).1,
      (openStream_ok hvideo).1]

/-- Either both streams are selected, or the first error is returned before anything is written. -/
theorem muxFiles_cases (env : Ffmpeg) :
    (∃ ret, firstError env = some ret ∧ muxFiles env = .failed ret) ∨
      ∃ audioSt videoSt, env.allocOutput = true ∧ openStream .audio env.audio = .ok audioSt ∧
        openStream .video env.video = .ok videoSt := by
  cases halloc : env.allocOutput with
  | false =>
    have hunknown : averrorUnknown < 0 := by decide
    exact .inl ⟨averrorUnknown, by simp [firstError, checks, halloc, hunknown],
      by simp [muxFiles, halloc]⟩
  | true =>
    cases haudio : openStream .audio env.audio with
    | error ret =>
      refine .inl ⟨ret, ?_, by simp [muxFiles, halloc, haudio]⟩
      simp [firstError, checks, halloc, List.find?_append, openStream_error haudio]
    | ok audioSt =>
      cases hvideo : openStream .video env.video with
      | error ret =>
        refine .inl ⟨ret, ?_, by simp [muxFiles, halloc, haudio, hvideo]⟩
        simp [firstError, checks, halloc, List.find?_append, (openStream_ok haudio).1,
          openStream_error hvideo]
      | ok videoSt => exact .inr ⟨audioSt, videoSt, rfl, rfl, rfl⟩

theorem firstError_neg {ret : ℤ} (h : firstError env = some ret) : ret < 0 := by
  simpa using List.find?_some h

/-- The value returned is that of the first error among the results that are checked. -/
theorem muxFiles_ret (env : Ffmpeg) : (muxFiles env).ret = exitValue ((firstError env).getD 0) := by
  obtain ⟨ret, hfirst, hmux⟩ | ⟨audioSt, videoSt, halloc, haudio, hvideo⟩ := muxFiles_cases env
  · rw [hmux, hfirst]
    rfl
  · obtain ⟨hmux, hfirst⟩ := muxFiles_of_selected halloc haudio hvideo
    rw [hmux, hfirst, muxStreams]
    by_cases hheader : env.writeHeader < 0
    · simp [hheader, Outcome.failed]
    · by_cases htrailer : env.writeTrailer < 0
      · simp [hheader, htrailer]
      · simp [hheader, htrailer, exitValue]

/-- The function fails exactly at an error that is checked and is not the end of a file. -/
theorem muxFiles_ret_eq_zero :
    (muxFiles env).ret = 0 ↔ ∀ code, firstError env = some code → code = averrorEof := by
  rw [muxFiles_ret]
  cases hfirst : firstError env with
  | none => simp [exitValue]
  | some code =>
    have hneg := firstError_neg hfirst
    simp only [Option.getD_some, Option.some.injEq, forall_eq', exitValue]
    constructor
    · intro hzero
      by_contra hcode
      rw [if_pos ⟨hneg, hcode⟩] at hzero
      omega
    · exact fun hcode ↦ if_neg fun h ↦ h.2 hcode

/-! ## The copy of a stream -/

/-- What is left to write of a stream. -/
def Track.pending (env : Ffmpeg) (st idx : ℕ) (track : Track) : List Packet :=
  (track.rest.filter (·.streamIndex = st)).map (outPacket env idx)

/-- Every packet so far was written. -/
structure Fine (env : Ffmpeg) (st idx : ℕ) (all : List Packet) (track : Track) : Prop where
  written : track.written ++ track.pending env st idx = all
  finished : track.encode = false → track.rest = []

/-- The stream was stopped by an error. -/
structure Broken (all : List Packet) (track : Track) : Prop where
  stopped : track.encode = false
  missing : track.written.length < all.length

/-- What a call of `ytdl__mux_write_frame` does. -/
theorem muxWriteFrame_cases (env : Ffmpeg) (st idx : ℕ) (track : Track) (calls : ℕ) :
    (track.rest = [] ∧
      muxWriteFrame env st idx track calls = ({ track with encode := false }, calls)) ∨
    ∃ packet rest, track.rest = packet :: rest ∧
      ((packet.streamIndex ≠ st ∧ muxWriteFrame env st idx track calls =
        ({ track with encode := true, rest := rest }, calls)) ∨
      (packet.streamIndex = st ∧ env.writeFrame calls < 0 ∧
        muxWriteFrame env st idx track calls =
          ({ track with
              encode := false
              nextPts := (outPacket env idx packet).pts
              rest := rest }, calls + 1)) ∨
      (packet.streamIndex = st ∧ 0 ≤ env.writeFrame calls ∧
        muxWriteFrame env st idx track calls =
          (⟨true, (outPacket env idx packet).pts, rest,
            track.written ++ [outPacket env idx packet]⟩, calls + 1))) := by
  cases hrest : track.rest with
  | nil => exact .inl ⟨rfl, by simp [muxWriteFrame, hrest]⟩
  | cons packet rest =>
    refine .inr ⟨packet, rest, rfl, ?_⟩
    by_cases hindex : packet.streamIndex = st
    · by_cases hwrite : env.writeFrame calls < 0
      · exact .inr (.inl ⟨hindex, hwrite, by simp [muxWriteFrame, hrest, hindex, hwrite]⟩)
      · exact .inr (.inr ⟨hindex, not_lt.mp hwrite,
          by simp [muxWriteFrame, hrest, hindex, hwrite]⟩)
    · exact .inl ⟨hindex, by simp [muxWriteFrame, hrest, hindex]⟩

/-- The rounds that a stream still takes. -/
def Track.rounds (track : Track) : ℕ := track.rest.length + track.encode.toNat

theorem pending_cons {st idx : ℕ} {track : Track} {packet : Packet} {rest : List Packet}
    (hrest : track.rest = packet :: rest) :
    track.pending env st idx =
      (if packet.streamIndex = st then [outPacket env idx packet] else []) ++
        (rest.filter (·.streamIndex = st)).map (outPacket env idx) := by
  by_cases hindex : packet.streamIndex = st <;> simp [Track.pending, hrest, hindex]

/-- Each call takes a packet or ends the stream, and a packet of the stream is handed on. -/
theorem muxWriteFrame_count (env : Ffmpeg) (st idx calls : ℕ) {track : Track}
    (hencode : track.encode = true) :
    (muxWriteFrame env st idx track calls).1.rounds < track.rounds ∧
      (muxWriteFrame env st idx track calls).2 +
          ((muxWriteFrame env st idx track calls).1.pending env st idx).length =
        calls + (track.pending env st idx).length := by
  obtain ⟨hrest, heq⟩ |
      ⟨packet, rest, hrest, ⟨hindex, heq⟩ | ⟨hindex, -, heq⟩ | ⟨hindex, -, heq⟩⟩ :=
    muxWriteFrame_cases env st idx track calls
  · rw [heq]
    simp [Track.rounds, Track.pending, hrest, hencode]
  · rw [heq, pending_cons hrest, if_neg hindex]
    simp [Track.rounds, Track.pending, hrest, hencode]
  · rw [heq, pending_cons hrest, if_pos hindex]
    simp [Track.rounds, Track.pending, hrest, hencode]
    omega
  · rw [heq, pending_cons hrest, if_pos hindex]
    simp [Track.rounds, Track.pending, hrest, hencode]
    omega

/-- A call for a stream that is fine either fails and breaks it, or leaves it fine. -/
theorem muxWriteFrame_fine (calls : ℕ) {st idx : ℕ} {all : List Packet} {track : Track}
    (h : Fine env st idx all track) :
    (Fine env st idx all (muxWriteFrame env st idx track calls).1 ∧
      ∀ call < (muxWriteFrame env st idx track calls).2, call < calls ∨ 0 ≤ env.writeFrame call) ∨
    (Broken all (muxWriteFrame env st idx track calls).1 ∧
      env.writeFrame calls < 0 ∧ (muxWriteFrame env st idx track calls).2 = calls + 1) := by
  have hwritten := h.written
  obtain ⟨hrest, heq⟩ | ⟨packet, rest, hrest, ⟨hindex, heq⟩ | ⟨hindex, hwrite, heq⟩ |
      ⟨hindex, hwrite, heq⟩⟩ := muxWriteFrame_cases env st idx track calls
  · rw [heq]
    exact .inl ⟨⟨hwritten, fun _ ↦ hrest⟩, fun call hcall ↦ .inl hcall⟩
  · rw [pending_cons hrest, if_neg hindex] at hwritten
    rw [heq]
    exact .inl ⟨⟨hwritten, by simp⟩, fun call hcall ↦ .inl hcall⟩
  · rw [pending_cons hrest, if_pos hindex] at hwritten
    rw [heq]
    refine .inr ⟨⟨rfl, ?_⟩, hwrite, rfl⟩
    rw [← hwritten]
    simp
  · rw [pending_cons hrest, if_pos hindex] at hwritten
    rw [heq]
    refine .inl ⟨⟨by simpa [Track.pending] using hwritten, by simp⟩, fun call hcall ↦ ?_⟩
    obtain hlt | rfl := Nat.lt_or_eq_of_le (Nat.le_of_lt_succ hcall)
    · exact .inl hlt
    · exact .inr hwrite

/-! ## The loop -/

/-- What the loop has done: the packets that are written and those that are left make up the
streams, or a write has failed and its stream lacks packets. -/
structure Progress (env : Ffmpeg) (audioSt videoSt : ℕ) (audio video : List Packet) (loop : Loop) :
    Prop where
  count :
    loop.calls + (loop.audio.pending env audioSt 0).length +
      (loop.video.pending env videoSt 1).length = audio.length + video.length
  fate :
    (Fine env audioSt 0 audio loop.audio ∧ Fine env videoSt 1 video loop.video ∧
      ∀ call < loop.calls, 0 ≤ env.writeFrame call) ∨
    ((Broken audio loop.audio ∨ Broken video loop.video) ∧
      ∃ call < audio.length + video.length, env.writeFrame call < 0)

/-- The rounds that the loop still takes, at most. -/
def Loop.rounds (loop : Loop) : ℕ := loop.audio.rounds + loop.video.rounds

/-- A round copies a stream that goes on: the audio stream unless it is ahead, or the video stream
unless it is behind or level. -/
theorem muxRound_cases (env : Ffmpeg) (audioSt videoSt : ℕ) {loop : Loop}
    (hgoes : loop.audio.encode = true ∨ loop.video.encode = true) :
    (loop.audio.encode = true ∧
      (loop.video.encode = true → env.compareTs loop.audio.nextPts loop.video.nextPts ≤ 0) ∧
      muxRound env audioSt videoSt loop =
        { loop with
          audio := (muxWriteFrame env audioSt 0 loop.audio loop.calls).1
          calls := (muxWriteFrame env audioSt 0 loop.audio loop.calls).2 }) ∨
    (loop.video.encode = true ∧
      (loop.audio.encode = true → ¬ env.compareTs loop.audio.nextPts loop.video.nextPts ≤ 0) ∧
      muxRound env audioSt videoSt loop =
        { loop with
          video := (muxWriteFrame env videoSt 1 loop.video loop.calls).1
          calls := (muxWriteFrame env videoSt 1 loop.video loop.calls).2 }) := by
  by_cases hturn : loop.audio.encode ∧
      (loop.video.encode = false ∨ env.compareTs loop.audio.nextPts loop.video.nextPts ≤ 0)
  · refine .inl ⟨hturn.1, fun hvideo ↦ ?_, if_pos hturn⟩
    exact hturn.2.resolve_left (by simp [hvideo])
  · refine .inr ⟨?_, fun haudio hle ↦ hturn ⟨haudio, .inr hle⟩, if_neg hturn⟩
    by_contra hvideo
    rw [Bool.not_eq_true] at hvideo
    obtain haudio | hvideo' := hgoes
    · exact hturn ⟨haudio, .inl hvideo⟩
    · simp [hvideo] at hvideo'

theorem muxRound_rounds (env : Ffmpeg) (audioSt videoSt : ℕ) {loop : Loop}
    (hgoes : loop.audio.encode = true ∨ loop.video.encode = true) :
    (muxRound env audioSt videoSt loop).rounds < loop.rounds := by
  obtain ⟨hencode, -, heq⟩ | ⟨hencode, -, heq⟩ := muxRound_cases env audioSt videoSt hgoes
  · rw [heq]
    exact Nat.add_lt_add_right (muxWriteFrame_count env audioSt 0 loop.calls hencode).1 _
  · rw [heq]
    exact Nat.add_lt_add_left (muxWriteFrame_count env videoSt 1 loop.calls hencode).1 _

/-- A round keeps what is known of the loop. -/
theorem progress_muxRound {audioSt videoSt : ℕ} {audio video : List Packet} {loop : Loop}
    (h : Progress env audioSt videoSt audio video loop)
    (hgoes : loop.audio.encode = true ∨ loop.video.encode = true) :
    Progress env audioSt videoSt audio video (muxRound env audioSt videoSt loop) := by
  have hcount := h.count
  obtain ⟨hencode, -, heq⟩ | ⟨hencode, -, heq⟩ := muxRound_cases env audioSt videoSt hgoes
  · have hnext := (muxWriteFrame_count env audioSt 0 loop.calls hencode).2
    rw [heq]
    refine ⟨by dsimp only; omega, ?_⟩
    obtain ⟨haudio, hvideo, hwrites⟩ | ⟨hbroken, hfails⟩ := h.fate
    · obtain ⟨hfine, hcalls⟩ | ⟨hbroken, hfail, hcalls⟩ := muxWriteFrame_fine loop.calls haudio
      · refine .inl ⟨hfine, hvideo, fun call hcall ↦ ?_⟩
        exact (hcalls call hcall).elim (hwrites call) id
      · refine .inr ⟨.inl hbroken, loop.calls, ?_, hfail⟩
        omega
    · refine .inr ⟨.inr (hbroken.resolve_left fun haudio ↦ ?_), hfails⟩
      simp [haudio.stopped] at hencode
  · have hnext := (muxWriteFrame_count env videoSt 1 loop.calls hencode).2
    rw [heq]
    refine ⟨by dsimp only; omega, ?_⟩
    obtain ⟨haudio, hvideo, hwrites⟩ | ⟨hbroken, hfails⟩ := h.fate
    · obtain ⟨hfine, hcalls⟩ | ⟨hbroken, hfail, hcalls⟩ := muxWriteFrame_fine loop.calls hvideo
      · refine .inl ⟨haudio, hfine, fun call hcall ↦ ?_⟩
        exact (hcalls call hcall).elim (hwrites call) id
      · refine .inr ⟨.inr hbroken, loop.calls, ?_, hfail⟩
        omega
    · refine .inr ⟨.inl (hbroken.resolve_right fun hvideo ↦ ?_), hfails⟩
      simp [hvideo.stopped] at hencode

/-- The loop stops by itself. -/
theorem muxLoop_stops (env : Ffmpeg) (audioSt videoSt : ℕ) {fuel : ℕ} {loop : Loop}
    (hfuel : loop.rounds ≤ fuel) :
    (muxLoop env audioSt videoSt fuel loop).audio.encode = false ∧
      (muxLoop env audioSt videoSt fuel loop).video.encode = false := by
  induction fuel generalizing loop with
  | zero =>
    simp only [Loop.rounds, Track.rounds] at hfuel
    have haudio : loop.audio.encode.toNat = 0 := by omega
    have hvideo : loop.video.encode.toNat = 0 := by omega
    exact ⟨Bool.toNat_eq_zero.mp haudio, Bool.toNat_eq_zero.mp hvideo⟩
  | succ fuel ih =>
    by_cases hgoes : loop.audio.encode = true ∨ loop.video.encode = true
    · rw [muxLoop, if_pos hgoes]
      have hless := muxRound_rounds env audioSt videoSt hgoes
      exact ih (by omega)
    · rw [muxLoop, if_neg hgoes]
      obtain ⟨haudio, hvideo⟩ := not_or.mp hgoes
      exact ⟨Bool.eq_false_iff.mpr haudio, Bool.eq_false_iff.mpr hvideo⟩

theorem rounds_start_le (env : Ffmpeg) : (Loop.start env).rounds ≤ loopFuel env := by
  simp only [Loop.start, Loop.rounds, Track.rounds, loopFuel, Bool.toNat_true]
  omega

theorem progress_muxLoop (fuel : ℕ) {audioSt videoSt : ℕ} {audio video : List Packet} {loop : Loop}
    (h : Progress env audioSt videoSt audio video loop) :
    Progress env audioSt videoSt audio video (muxLoop env audioSt videoSt fuel loop) := by
  induction fuel generalizing loop with
  | zero => exact h
  | succ fuel ih =>
    rw [muxLoop]
    split
    · next hgoes => exact ih (progress_muxRound h hgoes)
    · exact h

/-- The loop writes every packet exactly when no write fails. -/
theorem muxLoop_written_iff (env : Ffmpeg) {audioSt videoSt : ℕ} {audio video : List Packet}
    (haudio : audio = (env.audio.packets.filter (·.streamIndex = audioSt)).map (outPacket env 0))
    (hvideo : video = (env.video.packets.filter (·.streamIndex = videoSt)).map (outPacket env 1)) :
    ((muxLoop env audioSt videoSt (loopFuel env) (Loop.start env)).audio.written = audio ∧
      (muxLoop env audioSt videoSt (loopFuel env) (Loop.start env)).video.written = video) ↔
      ∀ call < audio.length + video.length, 0 ≤ env.writeFrame call := by
  have hstart : Progress env audioSt videoSt audio video (Loop.start env) := by
    refine ⟨by simp [Loop.start, Track.pending, haudio, hvideo], .inl ⟨?_, ?_, ?_⟩⟩
    · exact ⟨haudio.symm, by simp [Loop.start]⟩
    · exact ⟨hvideo.symm, by simp [Loop.start]⟩
    · simp [Loop.start]
  obtain ⟨hstopped, hstopped'⟩ := muxLoop_stops env audioSt videoSt (rounds_start_le env)
  obtain ⟨hcount, hfate⟩ := progress_muxLoop (loopFuel env) hstart
  generalize muxLoop env audioSt videoSt (loopFuel env) (Loop.start env) = last at *
  obtain ⟨hfine, hfine', hwrites⟩ | ⟨hbroken, call, hcall, hfail⟩ := hfate
  · have hpending : last.audio.pending env audioSt 0 = [] := by
      simp [Track.pending, hfine.finished hstopped]
    have hpending' : last.video.pending env videoSt 1 = [] := by
      simp [Track.pending, hfine'.finished hstopped']
    have hwritten := hfine.written
    have hwritten' := hfine'.written
    rw [hpending, List.append_nil] at hwritten
    rw [hpending', List.append_nil] at hwritten'
    rw [hpending, hpending'] at hcount
    refine iff_of_true ⟨hwritten, hwritten'⟩ fun call hcall ↦ hwrites call ?_
    simp only [List.length_nil] at hcount
    omega
  · refine iff_of_false (fun hboth ↦ ?_) fun hall ↦ absurd (hall call hcall) (not_le.mpr hfail)
    obtain hbroken | hbroken := hbroken
    · exact absurd (congrArg List.length hboth.1) hbroken.missing.ne
    · exact absurd (congrArg List.length hboth.2) hbroken.missing.ne

/-! ## When the output is complete -/

theorem not_complete_failed (ret : ℤ) : ¬ Complete env (.failed ret) := fun h ↦ by
  have hheader := h.header
  simp [Outcome.failed] at hheader

/-- The output is complete exactly when no call fails that it needs. -/
theorem complete_iff_flawless (env : Ffmpeg) : Complete env (muxFiles env) ↔ Flawless env := by
  obtain ⟨ret, hfirst, hmux⟩ | ⟨audioSt, videoSt, halloc, haudio, hvideo⟩ := muxFiles_cases env
  · rw [hmux]
    refine iff_of_false (not_complete_failed ret) fun h ↦ ?_
    exact absurd (hfirst.symm.trans h.checked) (Option.some_ne_none ret)
  · obtain ⟨hmux, hfirst⟩ := muxFiles_of_selected halloc haudio hvideo
    have hwritten := muxLoop_written_iff env
      (congrArg (List.map (outPacket env 0)) (openStream_ok haudio).2)
      (congrArg (List.map (outPacket env 1)) (openStream_ok hvideo).2)
    rw [List.length_map, List.length_map] at hwritten
    rw [hmux, muxStreams]
    by_cases hheader : env.writeHeader < 0
    · refine iff_of_false (fun h ↦ ?_) fun h ↦ ?_
      · have hfailed := h.header
        simp [hheader, Outcome.failed] at hfailed
      · have hchecked := h.checked
        simp [hfirst, hheader] at hchecked
    · rw [if_neg hheader]
      constructor
      · intro h
        have htrailer : 0 ≤ env.writeTrailer := by simpa using h.trailer
        refine ⟨?_, by simpa using h.opened, hwritten.mp ⟨h.audio, h.video⟩⟩
        simp [hfirst, hheader, not_lt.mpr htrailer]
      · intro h
        have hchecked := h.checked
        obtain ⟨haudio, hvideo⟩ := hwritten.mpr h.writes
        refine ⟨by simpa using h.opened, rfl, haudio, hvideo, ?_⟩
        rw [hfirst] at hchecked
        simpa [hheader] using hchecked

end Proofs

/-- What the function and its caller are to do: report success and unlink the temporary files only
when the output is complete. -/
structure OnlyComplete (isDebug : Bool) (env : Ffmpeg) : Prop where
  reported : (muxFiles env).ret = 0 → Complete env (muxFiles env)
  unlinked : (muxAndFree isDebug env).2 ≠ [] → Complete env (muxFiles env)

/-- **Only complete outputs count.** Success is reported, and the downloads are unlinked, only after
a complete mux exactly when no call fails that the output needs, or when in debug mode the first
error that is checked is not the end of a file. -/
theorem onlyComplete_iff (isDebug : Bool) (env : Ffmpeg) :
    OnlyComplete isDebug env ↔
      Flawless env ∨
        (isDebug = true ∧ ∃ code, firstError env = some code ∧ code ≠ averrorEof) := by
  have hunlink : (muxAndFree isDebug env).2 ≠ [] ↔ isDebug = false := by
    cases isDebug <;> simp [muxAndFree]
  have hfails : (muxFiles env).ret ≠ 0 ↔
      ∃ code, firstError env = some code ∧ code ≠ averrorEof := by
    rw [ne_eq, muxFiles_ret_eq_zero]
    push Not
    rfl
  rw [← complete_iff_flawless, ← hfails]
  constructor
  · intro h
    by_cases hcomplete : Complete env (muxFiles env)
    · exact .inl hcomplete
    · refine .inr ⟨?_, mt h.reported hcomplete⟩
      by_contra hdebug
      exact hcomplete (h.unlinked (hunlink.mpr (Bool.eq_false_iff.mpr hdebug)))
  · rintro (hcomplete | ⟨rfl, hret⟩)
    · exact ⟨fun _ ↦ hcomplete, fun _ ↦ hcomplete⟩
    · exact ⟨fun hzero ↦ absurd hzero hret, fun hne ↦ absurd (hunlink.mp hne) (by simp)⟩

/-- An input of one stream whose calls all succeed. -/
def goodInput (type : MediaType) (packets : List Packet) : Input := ⟨0, 0, [type], true, 0, packets⟩

/-- Every call succeeds but the second write. -/
def secondWriteFails : Ffmpeg where
  allocOutput := true
  audio := goodInput .audio [⟨0, 0, [1]⟩]
  video := goodInput .video [⟨0, 0, [2]⟩]
  noFile := false
  avioOpen := 0
  writeHeader := 0
  compareTs := fun first second ↦ first - second
  rescaleTs := fun _ packet ↦ packet
  writeFrame := fun call ↦ if call = 1 then -28 else 0
  writeTrailer := 0

/-- The video packet is lost, success is reported, and the downloads are unlinked. -/
theorem lostPacket_unlinks :
    (muxFiles secondWriteFails).ret = 0 ∧
      (muxAndFree false secondWriteFails).2 = [.audio, .video] ∧
      ¬ Complete secondWriteFails (muxFiles secondWriteFails) :=
  ⟨by decide, rfl, fun h ↦ absurd h.video (by decide)⟩

end LibYtdl.Mux.MuxFiles
