import LibYtdl.Foundation.Machine
import LibYtdl.Foundation.Transition

/-!
# The downloads of the command line

For each video the command line opens two temporary files and starts a download of each stream. The
callbacks of the two downloads share a `ytdl_cli_video_t`: the one that finishes last muxes the
files and frees it. Downloads of any number of videos run at the same time, and libuv makes their
callbacks in any order.

A step has no value where the library makes no such callback. A callback has no value where it
touches memory that was freed.
-/

namespace LibYtdl.Cli.Downloads

open Machine Transition

inductive Stream
  | audio | video
  deriving DecidableEq

/-- `ytdl_cli_video_t`. The files are numbered in the order in which `mkstemp` has made them. -/
structure Video where
  isDone : Stream → Bool
  fd : Stream → ℕ
  path : Stream → ℕ

/-- What the library does with the context of a download. -/
inductive Phase
  | absent | loading | running | stopping | freed
  deriving DecidableEq

/-- A video that is downloaded: its `ytdl_cli_video_t`, and for each stream the context of the
download and, unless a manifest is used, the descriptor in its `ytdl_cli_ctx_t`. What was freed is
`none`. -/
structure Session where
  isDash : Bool
  video : Option Video
  cliCtx : Stream → Option ℕ
  phase : Stream → Phase

/-- A call of `ytdl_mux_files`, with what the two files hold. -/
structure Mux where
  session : ℕ
  audio : Option Bytes
  video : Option Bytes
  deriving DecidableEq

/-- The downloads, the open descriptors with their files, and the files that were not unlinked. -/
structure World where
  isDebug : Bool
  sessions : List Session
  fds : ℕ → Option ℕ
  files : ℕ → Option Bytes
  created : ℕ
  muxed : List Mux

def World.initial (isDebug : Bool) : World := ⟨isDebug, [], fun _ ↦ none, fun _ ↦ none, 0, []⟩

inductive Event
  | infoComplete (isDash : Bool) (videoFd audioFd : ℕ)
  | manifest (i : ℕ)
  | data (i : ℕ) (stream : Stream) (buf : Bytes) (written : ℕ)
  | complete (i : ℕ) (stream : Stream)
  | close (i : ℕ) (stream : Stream)
  deriving DecidableEq

/-! ## The system calls -/

/-- `mkstemp`, with the descriptor that it returns. -/
def World.mkstemp (fd : ℕ) (world : World) : World :=
  { world with
    fds := Function.update world.fds fd (some world.created)
    files := Function.update world.files world.created (some [])
    created := world.created + 1 }

/-- `write`, which may take a part of the buffer only. The command line does not look at its
value. -/
def World.write (fd : ℕ) (buf : Bytes) (written : ℕ) (world : World) : World :=
  match world.fds fd with
  | none => world
  | some path =>
    { world with
      files := Function.update world.files path
        ((world.files path).map fun content ↦ content ++ buf.take written) }

def World.close (fd : ℕ) (world : World) : World :=
  { world with fds := Function.update world.fds fd none }

def World.unlink (path : ℕ) (world : World) : World :=
  { world with files := Function.update world.files path none }

def World.setSession (i : ℕ) (session : Session) (world : World) : World :=
  { world with sessions := world.sessions.set i session }

/-! ## The callbacks of `cli.c` -/

/-- The `ytdl_cli_video_t` of `ytdl__info_complete`. -/
def newVideo (videoFd audioFd created : ℕ) : Video where
  isDone _ := false
  fd
    | .audio => audioFd
    | .video => videoFd
  path
    | .audio => created + 1
    | .video => created

/-- A video with its download contexts: the one that loads the manifest, or one for each stream. -/
def newSession (isDash : Bool) (video : Video) : Session :=
  if isDash then
    { isDash := true
      video := some video
      cliCtx := fun _ ↦ none
      phase := fun | .audio => .loading | .video => .absent }
  else
    { isDash := false
      video := some video
      cliCtx := fun stream ↦ some (video.fd stream)
      phase := fun _ ↦ .running }

/-- `ytdl__info_complete`, where it starts the downloads of a video. -/
def infoComplete (isDash : Bool) (videoFd audioFd : ℕ) (world : World) : World :=
  let session := newSession isDash (newVideo videoFd audioFd world.created)
  let world := (world.mkstemp videoFd).mkstemp audioFd
  { world with sessions := world.sessions ++ [session] }

/-- `ytdl__dash_manifest_done`: the first context goes on with the audio, and a fork with the
video. -/
def dashManifestDone (i : ℕ) (session : Session) (world : World) : World :=
  world.setSession i { session with phase := fun _ ↦ .running }

/-- `ytdl__media_pipe`. -/
def mediaPipe (stream : Stream) (buf : Bytes) (written : ℕ) (session : Session) (world : World) :
    Option World := do
  let fd ← session.cliCtx stream
  let _ ← session.video
  some (world.write fd buf written)

/-- `ytdl__dash_pipe`. -/
def dashPipe (stream : Stream) (buf : Bytes) (written : ℕ) (session : Session) (world : World) :
    Option World := do
  let video ← session.video
  some (world.write (video.fd stream) buf written)

/-- `ytdl__mux_and_free`. -/
def muxAndFree (i : ℕ) (session : Session) (video : Video) (world : World) : Session × World :=
  let mux : Mux := ⟨i, world.files (video.path .audio), world.files (video.path .video)⟩
  let world := { world with muxed := world.muxed ++ [mux] }
  let world :=
    if world.isDebug then world
    else (world.unlink (video.path .audio)).unlink (video.path .video)
  ({ session with video := none }, world)

/-- The end of a stream, in `ytdl__media_complete` and `ytdl__dash_complete`. -/
def streamDone (i : ℕ) (stream : Stream) (session : Session) (video : Video) (world : World) :
    Session × World :=
  let video := { video with isDone := Function.update video.isDone stream true }
  let session := { session with video := some video }
  if video.isDone .audio && video.isDone .video then muxAndFree i session video world
  else (session, world)

/-- `ytdl__media_complete`. -/
def mediaComplete (i : ℕ) (stream : Stream) (session : Session) (world : World) : Option World := do
  let fd ← session.cliCtx stream
  let video ← session.video
  let (session, world) := streamDone i stream session video (world.close fd)
  some (world.setSession i
    { session with
      cliCtx := Function.update session.cliCtx stream none
      phase := Function.update session.phase stream .stopping })

/-- `ytdl__dash_complete`. -/
def dashComplete (i : ℕ) (stream : Stream) (session : Session) (world : World) : Option World := do
  let video ← session.video
  let (session, world) := streamDone i stream session video world
  some (world.setSession i
    { session with phase := Function.update session.phase stream .stopping })

/-- `ytdl__media_close_cb` and `ytdl__dash_close_cb`. -/
def closeCb (i : ℕ) (stream : Stream) (session : Session) (world : World) : World :=
  world.setSession i { session with phase := Function.update session.phase stream .freed }

/-! ## The event loop -/

/-- The callbacks that are made in a state. A new descriptor is none of the open ones. A server
answers a request once, so a download that has ended gets no more data. -/
def World.makes (world : World) : Event → Bool
  | .infoComplete _ videoFd audioFd =>
    world.fds videoFd = none && world.fds audioFd = none && videoFd ≠ audioFd
  | .manifest i => world.sessions[i]?.any fun session ↦ session.phase .audio = .loading
  | .data i stream _ _ | .complete i stream =>
    world.sessions[i]?.any fun session ↦ session.phase stream = .running
  | .close i stream => world.sessions[i]?.any fun session ↦ session.phase stream = .stopping

/-- What a callback does. -/
def handle (world : World) : Event → Option World
  | .infoComplete isDash videoFd audioFd => some (infoComplete isDash videoFd audioFd world)
  | .manifest i => world.sessions[i]?.map fun session ↦ dashManifestDone i session world
  | .data i stream buf written => do
    let session ← world.sessions[i]?
    if session.isDash then dashPipe stream buf written session world
    else mediaPipe stream buf written session world
  | .complete i stream => do
    let session ← world.sessions[i]?
    if session.isDash then dashComplete i stream session world
    else mediaComplete i stream session world
  | .close i stream => world.sessions[i]?.map fun session ↦ closeCb i stream session world

def step : Step World Event := fun world event ↦
  if world.makes event then handle world event else none

/-! ## What the events say -/

/-- What an event writes for a stream of a video. -/
def pieceOf (i : ℕ) (stream : Stream) : Event → Bytes
  | .data j other buf written => if j = i ∧ other = stream then buf.take written else []
  | _ => []

/-- What was written for a stream of a video. -/
def dataOf (events : List Event) (i : ℕ) (stream : Stream) : Bytes :=
  events.flatMap (pieceOf i stream)

/-- Both streams of a video have ended. -/
def Ended (events : List Event) (i : ℕ) : Prop := ∀ stream, .complete i stream ∈ events

instance (events : List Event) (i : ℕ) : Decidable (Ended events i) :=
  decidable_of_iff (.complete i .audio ∈ events ∧ .complete i .video ∈ events)
    ⟨fun h ↦ fun | .audio => h.1 | .video => h.2, fun h ↦ ⟨h .audio, h .video⟩⟩

/-- The mux of a video. -/
def muxOf (events : List Event) (i : ℕ) : Mux :=
  ⟨i, some (dataOf events i .audio), some (dataOf events i .video)⟩

/-- The number of the file of a stream. -/
def pathOf (i : ℕ) : Stream → ℕ
  | .audio => 2 * i + 1
  | .video => 2 * i

section Events

variable {events : List Event} {event : Event} {i j : ℕ} {stream other : Stream}

theorem dataOf_concat :
    dataOf (events ++ [event]) i stream = dataOf events i stream ++ pieceOf i stream event := by
  rw [dataOf, List.flatMap_append, List.flatMap_singleton]
  rfl

theorem mem_concat_of_ne (h : event ≠ .complete i stream) :
    Event.complete i stream ∈ events ++ [event] ↔ .complete i stream ∈ events := by
  rw [List.mem_append, List.mem_singleton, or_iff_left (Ne.symm h)]

theorem mem_concat_complete :
    Event.complete i other ∈ events ++ [.complete i stream] ↔
      other = stream ∨ .complete i other ∈ events := by
  rw [List.mem_append, List.mem_singleton, Event.complete.injEq, or_comm]
  exact or_congr_left (and_iff_right rfl)

theorem ended_concat (hcomplete : ∀ stream, event ≠ .complete i stream) :
    Ended (events ++ [event]) i ↔ Ended events i :=
  forall_congr' fun stream ↦ mem_concat_of_ne (hcomplete stream)

theorem muxOf_concat (hpiece : ∀ stream, pieceOf i stream event = []) :
    muxOf (events ++ [event]) i = muxOf events i := by
  simp only [muxOf, dataOf_concat, hpiece, List.append_nil]

theorem pathOf_lt : pathOf i stream < 2 * (i + 1) := by
  cases stream <;> simp only [pathOf] <;> omega

theorem le_pathOf : 2 * i ≤ pathOf i stream := by
  cases stream
  · exact Nat.le_succ _
  · exact le_rfl

theorem pathOf_inj : pathOf i stream = pathOf j other ↔ i = j ∧ stream = other := by
  constructor
  · intro h
    cases stream <;> cases other <;> simp only [pathOf] at h <;> refine ⟨by omega, ?_⟩
    · rfl
    · omega
    · omega
    · rfl
  · rintro ⟨rfl, rfl⟩
    rfl

end Events

/-! ## The invariant -/

/-- The `ytdl_cli_video_t` of a video of which a stream has not ended. -/
structure Live (events : List Event) (world : World) (i : ℕ) (session : Session) (video : Video) :
    Prop where
  isDone : ∀ stream, video.isDone stream = true ↔ .complete i stream ∈ events
  path : ∀ stream, video.path stream = pathOf i stream
  fd : ∀ stream, .complete i stream ∉ events →
    world.fds (video.fd stream) = some (pathOf i stream)
  cliCtx : session.isDash = false → ∀ stream, .complete i stream ∉ events →
    session.cliCtx stream = some (video.fd stream)

/-- A video, its files and its descriptors, of which the ones that a manifest needs stay open. -/
structure Kept (events : List Event) (world : World) (i : ℕ) (session : Session) : Prop where
  phase : ∀ stream, .complete i stream ∈ events ↔
    session.phase stream = .stopping ∨ session.phase stream = .freed
  loading : session.phase .audio = .loading → session.phase .video = .absent
  live : ¬ Ended events i → ∃ video, session.video = some video ∧ Live events world i session video
  ended : Ended events i → session.video = none
  cliCtx : ∀ stream, session.cliCtx stream = none ↔
    session.isDash = true ∨ .complete i stream ∈ events
  file : ∀ stream, world.files (pathOf i stream) =
    if Ended events i ∧ world.isDebug = false then none else some (dataOf events i stream)
  opened : ∀ stream, (∃ fd, world.fds fd = some (pathOf i stream)) ↔
    session.isDash = true ∨ .complete i stream ∉ events

structure Inv (events : List Event) (world : World) : Prop where
  created : world.created = 2 * world.sessions.length
  opened : ∀ fd path, world.fds fd = some path → path < world.created
  distinct : ∀ fd other path, world.fds fd = some path → world.fds other = some path → fd = other
  kept : ∀ i session, world.sessions[i]? = some session → Kept events world i session
  unknown : ∀ i, world.sessions.length ≤ i → ∀ stream,
    .complete i stream ∉ events ∧ dataOf events i stream = []
  muxed : ∀ i, world.muxed.filter (·.session = i) = if Ended events i then [muxOf events i] else []

theorem inv_initial (isDebug : Bool) : Inv [] (World.initial isDebug) where
  created := rfl
  opened _ _ h := nomatch h
  distinct _ _ _ h := nomatch h
  kept _ _ h := nomatch h
  unknown _ _ _ := ⟨List.not_mem_nil, rfl⟩
  muxed i := (if_neg fun h : Ended [] i ↦ List.not_mem_nil (h .audio)).symm

section Invariant

variable {events : List Event} {event : Event} {world next : World} {i : ℕ}
  {session other : Session}
  {video : Video} {stream : Stream}

theorem Kept.isSome (h : Kept events world i session) (hopen : .complete i stream ∉ events) :
    ∃ video, session.video = some video ∧ Live events world i session video :=
  h.live fun hended ↦ hopen (hended stream)

theorem Kept.not_mem (h : Kept events world i session) (hphase : session.phase stream = .running) :
    .complete i stream ∉ events := by
  rw [h.phase, hphase]
  simp

/-- What happens to other videos leaves a video as it is. -/
theorem Kept.frame (h : Kept events world i session)
    (hcomplete : ∀ stream, event ≠ .complete i stream)
    (hpiece : ∀ stream, pieceOf i stream event = []) (hdebug : next.isDebug = world.isDebug)
    (hfiles : ∀ stream, next.files (pathOf i stream) = world.files (pathOf i stream))
    (hfds : ∀ fd stream,
      next.fds fd = some (pathOf i stream) ↔ world.fds fd = some (pathOf i stream)) :
    Kept (events ++ [event]) next i session where
  phase := by
    intro stream
    rw [mem_concat_of_ne (hcomplete stream), h.phase]
  loading := h.loading
  live := by
    intro hended
    rw [ended_concat hcomplete] at hended
    obtain ⟨video, hvideo, hlive⟩ := h.live hended
    refine ⟨video, hvideo, fun stream ↦ ?_, hlive.path, fun stream hopen ↦ ?_,
      fun hdash stream hopen ↦ ?_⟩
    · rw [mem_concat_of_ne (hcomplete stream), hlive.isDone]
    · rw [mem_concat_of_ne (hcomplete stream)] at hopen
      exact (hfds _ _).mpr (hlive.fd stream hopen)
    · rw [mem_concat_of_ne (hcomplete stream)] at hopen
      exact hlive.cliCtx hdash stream hopen
  ended := by
    intro hended
    exact h.ended ((ended_concat hcomplete).mp hended)
  cliCtx := by
    intro stream
    rw [mem_concat_of_ne (hcomplete stream), h.cliCtx]
  file := by
    intro stream
    rw [hfiles, h.file, hdebug, dataOf_concat, hpiece, List.append_nil]
    simp only [ended_concat hcomplete]
  opened := by
    intro stream
    simp only [hfds, h.opened, mem_concat_of_ne (hcomplete stream)]

/-- An event that ends no stream and writes nothing for an ended video leaves its mux. -/
theorem muxed_frame (h : Inv events world) (hcomplete : ∀ i stream, event ≠ .complete i stream)
    (i : ℕ) (hpiece : Ended events i → ∀ stream, pieceOf i stream event = []) :
    world.muxed.filter (·.session = i) =
      if Ended (events ++ [event]) i then [muxOf (events ++ [event]) i] else [] := by
  rw [h.muxed i]
  by_cases hended : Ended events i
  · rw [if_pos hended, if_pos ((ended_concat (hcomplete i)).mpr hended),
      muxOf_concat (hpiece hended)]
  · rw [if_neg hended, if_neg (mt (ended_concat (hcomplete i)).mp hended)]

/-! ### A new video -/

theorem mkstemp_fds {fd created : ℕ} {fds : ℕ → Option ℕ} (hfree : fds fd = none) {k path : ℕ} :
    Function.update fds fd (some created) k = some path ↔
      k = fd ∧ path = created ∨ fds k = some path := by
  by_cases hk : k = fd
  · subst hk
    rw [Function.update_self, hfree, Option.some_inj, eq_comm]
    simp
  · rw [Function.update_of_ne hk]
    simp [hk]

theorem infoComplete_fds (isDash : Bool) {videoFd audioFd : ℕ} (hvideoFd : world.fds videoFd = none)
    (haudioFd : world.fds audioFd = none) (hne : videoFd ≠ audioFd) {k path : ℕ} :
    (infoComplete isDash videoFd audioFd world).fds k = some path ↔
      k = audioFd ∧ path = world.created + 1 ∨ k = videoFd ∧ path = world.created ∨
        world.fds k = some path := by
  refine (mkstemp_fds ?_).trans (or_congr_right (mkstemp_fds hvideoFd))
  exact (Function.update_of_ne hne.symm _ _).trans haudioFd

/-- The session of a new video. -/
theorem kept_infoComplete (h : Inv events world) (isDash : Bool) {videoFd audioFd : ℕ}
    (hvideoFd : world.fds videoFd = none) (haudioFd : world.fds audioFd = none)
    (hne : videoFd ≠ audioFd) :
    Kept (events ++ [.infoComplete isDash videoFd audioFd])
      (infoComplete isDash videoFd audioFd world) world.sessions.length
      (newSession isDash (newVideo videoFd audioFd world.created)) := by
  have hcomplete (stream : Stream) : Event.complete world.sessions.length stream ∉
      events ++ [.infoComplete isDash videoFd audioFd] := by
    rw [mem_concat_of_ne (by simp)]
    exact (h.unknown _ le_rfl stream).1
  have hdata (stream : Stream) : dataOf (events ++ [.infoComplete isDash videoFd audioFd])
      world.sessions.length stream = [] := by
    rw [dataOf_concat, (h.unknown _ le_rfl stream).2]
    rfl
  have hended : ¬ Ended (events ++ [.infoComplete isDash videoFd audioFd]) world.sessions.length :=
    fun hended ↦ hcomplete .audio (hended .audio)
  have hpath (stream : Stream) :
      (newVideo videoFd audioFd world.created).path stream =
        pathOf world.sessions.length stream := by
    cases stream
    · exact congrArg (· + 1) h.created
    · exact h.created
  have hfd (stream : Stream) : (infoComplete isDash videoFd audioFd world).fds
      ((newVideo videoFd audioFd world.created).fd stream) =
        some (pathOf world.sessions.length stream) := by
    rw [infoComplete_fds isDash hvideoFd haudioFd hne, ← hpath]
    cases stream
    · exact .inl ⟨rfl, rfl⟩
    · exact .inr (.inl ⟨rfl, rfl⟩)
  refine ⟨fun stream ↦ iff_of_false (hcomplete stream) ?_, ?_, fun _ ↦
    ⟨newVideo videoFd audioFd world.created, ?_,
      fun stream ↦ iff_of_false Bool.false_ne_true (hcomplete stream), hpath,
        fun stream _ ↦ hfd stream,
      fun hdash stream _ ↦ ?_⟩, fun hmem ↦ absurd hmem hended, fun stream ↦ ?_, fun stream ↦ ?_,
    fun stream ↦ iff_of_true ⟨_, hfd stream⟩ (.inr (hcomplete stream))⟩
  · cases isDash <;> cases stream <;> simp [newSession]
  · cases isDash <;> simp [newSession]
  · cases isDash <;> rfl
  · cases isDash
    · rfl
    · exact nomatch hdash
  · cases isDash <;> simp [newSession, hcomplete]
  · rw [if_neg (fun hmem ↦ hended hmem.1), hdata, ← hpath]
    cases stream
    · exact Function.update_self ..
    · exact (Function.update_of_ne (Nat.lt_succ_self _).ne _ _).trans (Function.update_self ..)

theorem inv_infoComplete (h : Inv events world) (isDash : Bool) {videoFd audioFd : ℕ}
    (hvideoFd : world.fds videoFd = none) (haudioFd : world.fds audioFd = none)
    (hne : videoFd ≠ audioFd) :
    Inv (events ++ [.infoComplete isDash videoFd audioFd])
      (infoComplete isDash videoFd audioFd world) := by
  have hsessions : (infoComplete isDash videoFd audioFd world).sessions =
      world.sessions ++ [newSession isDash (newVideo videoFd audioFd world.created)] := rfl
  have hcreated : (infoComplete isDash videoFd audioFd world).created = world.created + 2 := rfl
  have hfds {k path : ℕ} : (infoComplete isDash videoFd audioFd world).fds k = some path ↔ _ :=
    infoComplete_fds isDash hvideoFd haudioFd hne
  refine ⟨?_, fun fd path hfd ↦ ?_, fun fd other path hfd hother ↦ ?_, fun k found hfound ↦ ?_,
    fun k hk stream ↦ ?_, fun k ↦ muxed_frame h (by simp) k fun _ _ ↦ rfl⟩
  · rw [hcreated, hsessions, List.length_append, List.length_singleton, h.created]
    rfl
  · rw [hcreated]
    obtain ⟨-, rfl⟩ | ⟨-, rfl⟩ | hfd := hfds.mp hfd
    · exact Nat.lt_succ_self _
    · exact Nat.lt_succ_of_lt (Nat.lt_succ_self _)
    · exact (h.opened fd path hfd).trans (Nat.lt_succ_of_lt (Nat.lt_succ_self _))
  · rw [hfds] at hfd hother
    have hopened (fd : ℕ) (hold : world.fds fd = some path) := h.opened fd path hold
    obtain ⟨hfd, hpath⟩ | ⟨hfd, hpath⟩ | hfd := hfd <;>
      obtain ⟨hother, hagain⟩ | ⟨hother, hagain⟩ | hother := hother
    · rw [hfd, hother]
    · omega
    · exact absurd (hopened other hother) (by omega)
    · omega
    · rw [hfd, hother]
    · exact absurd (hopened other hother) (by omega)
    · exact absurd (hopened fd hfd) (by omega)
    · exact absurd (hopened fd hfd) (by omega)
    · exact h.distinct fd other path hfd hother
  · rw [hsessions] at hfound
    obtain hlt | hge := Nat.lt_or_ge k world.sessions.length
    · rw [List.getElem?_append_left hlt] at hfound
      have hpath (stream : Stream) : pathOf k stream < world.created := by
        have hlast : pathOf k stream < 2 * (k + 1) := pathOf_lt
        rw [h.created]
        omega
      refine (h.kept k found hfound).frame (by simp) (fun _ ↦ rfl) rfl (fun stream ↦ ?_)
        fun fd stream ↦ ?_
      · exact (Function.update_of_ne (Nat.lt_succ_of_lt (hpath stream)).ne _ _).trans
          (Function.update_of_ne (hpath stream).ne _ _)
      · rw [hfds]
        have := hpath stream
        constructor
        · rintro (⟨-, hfd⟩ | ⟨-, hfd⟩ | hfd)
          · omega
          · omega
          · exact hfd
        · exact fun hfd ↦ .inr (.inr hfd)
    · rw [List.getElem?_append_right hge] at hfound
      obtain ⟨hk, hnew⟩ := List.getElem?_eq_some_iff.mp hfound
      rw [List.getElem_singleton] at hnew
      rw [List.length_singleton] at hk
      obtain rfl : k = world.sessions.length := by omega
      rw [← hnew]
      exact kept_infoComplete h isDash hvideoFd haudioFd hne
  · rw [hsessions, List.length_append, List.length_singleton] at hk
    obtain ⟨hcomplete, hdata⟩ := h.unknown k (by omega) stream
    refine ⟨by rwa [mem_concat_of_ne (by simp)], ?_⟩
    rw [dataOf_concat, hdata]
    rfl

/-! ### An event of one video -/

/-- An event of a video leaves what belongs to the other ones. -/
structure Touches (i : ℕ) (event : Event) (world next : World) : Prop where
  complete : ∀ k stream, k ≠ i → event ≠ .complete k stream
  piece : ∀ k stream, k ≠ i → pieceOf k stream event = []
  isDebug : next.isDebug = world.isDebug
  created : next.created = world.created
  files : ∀ k stream, k ≠ i → next.files (pathOf k stream) = world.files (pathOf k stream)
  fds : ∀ k fd stream, k ≠ i →
    (next.fds fd = some (pathOf k stream) ↔ world.fds fd = some (pathOf k stream))
  closed : ∀ fd path, next.fds fd = some path → world.fds fd = some path

theorem Inv.touch (h : Inv events world) (hsession : world.sessions[i]? = some session)
    (htouches : Touches i event world next) (hsessions : next.sessions = world.sessions.set i other)
    (hkept : Kept (events ++ [event]) next i other)
    (hmuxed : ∀ k, next.muxed.filter (·.session = k) =
      if Ended (events ++ [event]) k then [muxOf (events ++ [event]) k] else []) :
    Inv (events ++ [event]) next where
  created := by
    rw [htouches.created, hsessions, List.length_set, h.created]
  opened := by
    intro fd path hfd
    rw [htouches.created]
    exact h.opened fd path (htouches.closed fd path hfd)
  distinct := by
    intro fd again path hfd hagain
    exact h.distinct fd again path (htouches.closed fd path hfd) (htouches.closed again path hagain)
  kept := by
    intro k found hfound
    rw [hsessions] at hfound
    by_cases hk : k = i
    · subst hk
      rw [List.getElem?_set_self (List.getElem?_eq_some_iff.mp hsession).1] at hfound
      rwa [← Option.some.inj hfound]
    · rw [List.getElem?_set_ne (Ne.symm hk)] at hfound
      exact (h.kept k found hfound).frame (fun stream ↦ htouches.complete k stream hk)
        (fun stream ↦ htouches.piece k stream hk) htouches.isDebug
        (fun stream ↦ htouches.files k stream hk) fun fd stream ↦ htouches.fds k fd stream hk
  unknown := by
    intro k hk stream
    rw [hsessions, List.length_set] at hk
    have hne : k ≠ i := by
      rintro rfl
      exact absurd (List.getElem?_eq_some_iff.mp hsession).1 (Nat.not_lt.mpr hk)
    obtain ⟨hcomplete, hdata⟩ := h.unknown k hk stream
    refine ⟨by rwa [mem_concat_of_ne (htouches.complete k stream hne)], ?_⟩
    rw [dataOf_concat, hdata, htouches.piece k stream hne]
    rfl
  muxed := hmuxed

theorem touches_setSession (hcomplete : ∀ k stream, event ≠ .complete k stream)
    (hpiece : ∀ k stream, pieceOf k stream event = []) :
    Touches i event world (world.setSession i other) where
  complete k stream _ := hcomplete k stream
  piece k stream _ := hpiece k stream
  isDebug := rfl
  created := rfl
  files _ _ _ := rfl
  fds _ _ _ _ := Iff.rfl
  closed _ _ hfd := hfd

theorem inv_manifest (h : Inv events world) (hsession : world.sessions[i]? = some session)
    (hloading : session.phase .audio = .loading) :
    Inv (events ++ [.manifest i]) (dashManifestDone i session world) := by
  have hkept := h.kept i session hsession
  have hopen (stream : Stream) : Event.complete i stream ∉ events := by
    rw [hkept.phase]
    cases stream
    · simp [hloading]
    · simp [hkept.loading hloading]
  have hframe : Kept (events ++ [.manifest i]) (dashManifestDone i session world) i session :=
    hkept.frame (by simp) (fun _ ↦ rfl) rfl (fun _ ↦ rfl) fun _ _ ↦ Iff.rfl
  refine h.touch hsession (touches_setSession (by simp) fun _ _ ↦ rfl) rfl
    { hframe with
      phase := fun stream ↦ ?_
      loading := fun hrunning ↦ nomatch hrunning
      live := fun hended ↦ ?_ }
    fun k ↦ muxed_frame h (by simp) k fun _ _ ↦ rfl
  · rw [mem_concat_of_ne (by simp)]
    exact iff_of_false (hopen stream) (by simp)
  · obtain ⟨video, hvideo, hlive⟩ := hframe.live hended
    exact ⟨video, hvideo, hlive.isDone, hlive.path, hlive.fd, hlive.cliCtx⟩

theorem inv_close (h : Inv events world) (hsession : world.sessions[i]? = some session)
    (hstopping : session.phase stream = .stopping) :
    Inv (events ++ [.close i stream]) (closeCb i stream session world) := by
  have hframe : Kept (events ++ [.close i stream]) (closeCb i stream session world) i session :=
    (h.kept i session hsession).frame (by simp) (fun _ ↦ rfl) rfl (fun _ ↦ rfl) fun _ _ ↦ Iff.rfl
  refine h.touch hsession (touches_setSession (by simp) fun _ _ ↦ rfl) rfl
    { hframe with
      phase := fun other ↦ ?_
      loading := fun hloading ↦ ?_
      live := fun hended ↦ ?_ }
    fun k ↦ muxed_frame h (by simp) k fun _ _ ↦ rfl
  · rw [hframe.phase]
    dsimp only
    by_cases hother : other = stream
    · subst hother
      rw [Function.update_self, hstopping]
      simp
    · rw [Function.update_of_ne hother]
  · cases stream with
    | audio =>
      dsimp only at hloading
      rw [Function.update_self] at hloading
      exact nomatch hloading
    | video =>
      dsimp only at hloading
      rw [Function.update_of_ne (by decide)] at hloading
      have habsent := hframe.loading hloading
      rw [hstopping] at habsent
      exact nomatch habsent
  · obtain ⟨video, hvideo, hlive⟩ := hframe.live hended
    exact ⟨video, hvideo, hlive.isDone, hlive.path, hlive.fd, hlive.cliCtx⟩

/-- A callback that gets a part of a stream writes it to the file of the stream. -/
theorem inv_write (h : Inv events world) (hsession : world.sessions[i]? = some session)
    {fd : ℕ} (hfd : world.fds fd = some (pathOf i stream)) (hopen : .complete i stream ∉ events)
    (buf : Bytes) (written : ℕ) :
    Inv (events ++ [.data i stream buf written]) (world.write fd buf written) := by
  have hkept := h.kept i session hsession
  have hended : ¬ Ended events i := fun hended ↦ hopen (hended stream)
  have hpiece {k : ℕ} {other : Stream} (hne : ¬ (i = k ∧ stream = other)) :
      pieceOf k other (.data i stream buf written) = [] := if_neg hne
  have hwrite : world.write fd buf written = { world with
      files := Function.update world.files (pathOf i stream)
        ((world.files (pathOf i stream)).map fun content ↦ content ++ buf.take written) } := by
    rw [World.write, hfd]
  have hset : world.sessions = world.sessions.set i session := by
    obtain ⟨hlt, hget⟩ := List.getElem?_eq_some_iff.mp hsession
    rw [← hget, List.set_getElem_self]
  rw [hwrite]
  refine h.touch hsession ⟨fun _ _ _ ↦ by simp, fun k other hk ↦ hpiece (hk ·.1.symm), rfl, rfl,
    fun k other hk ↦ Function.update_of_ne (fun hpath ↦ hk (Iff.mp pathOf_inj hpath).1) _ _,
    fun _ _ _ _ ↦ Iff.rfl, fun _ _ hfd ↦ hfd⟩ hset ?_ fun k ↦ muxed_frame h (by simp) k fun hk _ ↦
      ?_
  · refine ⟨fun other ↦ ?_, hkept.loading, fun _ ↦ ?_, fun hmem ↦ ?_, fun other ↦ ?_,
      fun other ↦ ?_,
      fun other ↦ ?_⟩
    · rw [mem_concat_of_ne (by simp), hkept.phase]
    · obtain ⟨video, hvideo, hlive⟩ := hkept.live hended
      refine ⟨video, hvideo, fun other ↦ ?_, hlive.path, fun other hother ↦ ?_,
        fun hdash other hother ↦ ?_⟩
      · rw [mem_concat_of_ne (by simp), hlive.isDone]
      · exact hlive.fd other (by rwa [mem_concat_of_ne (by simp)] at hother)
      · exact hlive.cliCtx hdash other (by rwa [mem_concat_of_ne (by simp)] at hother)
    · exact absurd ((ended_concat (by simp)).mp hmem) hended
    · rw [mem_concat_of_ne (by simp), hkept.cliCtx]
    · have hfile := hkept.file
      simp only [if_neg fun hmem : Ended events i ∧ _ ↦ hended hmem.1] at hfile
      rw [if_neg fun hmem ↦ hended ((ended_concat (by simp)).mp hmem.1), dataOf_concat]
      by_cases hother : other = stream
      · subst hother
        rw [pieceOf, if_pos ⟨rfl, rfl⟩]
        refine (Function.update_self ..).trans ?_
        rw [hfile]
        rfl
      · rw [hpiece (Ne.symm hother ·.2), List.append_nil]
        refine (Function.update_of_ne (fun hpath ↦ hother (Iff.mp pathOf_inj hpath).2) _ _).trans ?_
        exact hfile other
    · rw [mem_concat_of_ne (by simp)]
      exact hkept.opened other
  · refine hpiece ?_
    rintro ⟨rfl, -⟩
    exact hended hk

/-! ### The end of a stream -/

theorem streamDone_eq (hlive : Live events world i session video) (base : World) :
    streamDone i stream session video base =
      if Ended (events ++ [.complete i stream]) i then
        ({ session with video := none },
          { base with
            muxed := base.muxed ++
              [⟨i, base.files (pathOf i .audio), base.files (pathOf i .video)⟩]
            files := if base.isDebug then base.files else Function.update
              (Function.update base.files (pathOf i .audio) none) (pathOf i .video) none })
      else
        ({ session with
            video := some { video with isDone := Function.update video.isDone stream true } },
          base) := by
  have hdone (other : Stream) : Function.update video.isDone stream true other = true ↔
      Event.complete i other ∈ events ++ [.complete i stream] := by
    rw [mem_concat_complete]
    by_cases hother : other = stream
    · subst hother
      simp
    · rw [Function.update_of_ne hother, hlive.isDone]
      simp [hother]
  have hended : (Function.update video.isDone stream true .audio &&
      Function.update video.isDone stream true .video) = true ↔
        Ended (events ++ [.complete i stream]) i := by
    rw [Bool.and_eq_true, hdone, hdone]
    exact ⟨fun hmem ↦ fun | .audio => hmem.1 | .video => hmem.2,
      fun hmem ↦ ⟨hmem .audio, hmem .video⟩⟩
  rw [streamDone]
  simp only [hended, muxAndFree, hlive.path]
  split
  · split
    · rfl
    · rfl
  · rfl

theorem streamDone_cliCtx (base : World) :
    (streamDone i stream session video base).1.cliCtx = session.cliCtx := by
  rw [streamDone]
  split
  · rfl
  · rfl

theorem streamDone_phase (base : World) :
    (streamDone i stream session video base).1.phase = session.phase := by
  rw [streamDone]
  split
  · rfl
  · rfl

theorem muxed_complete (h : Inv events world) (hsession : world.sessions[i]? = some session)
    (hopen : .complete i stream ∉ events) (k : ℕ) :
    (if Ended (events ++ [.complete i stream]) i then world.muxed ++
        [⟨i, world.files (pathOf i .audio), world.files (pathOf i .video)⟩]
      else world.muxed).filter (·.session = k) =
      if Ended (events ++ [.complete i stream]) k then
        [muxOf (events ++ [.complete i stream]) k]
      else [] := by
  have hmuxOf : muxOf (events ++ [.complete i stream]) k = muxOf events k :=
    muxOf_concat fun _ ↦ rfl
  rw [hmuxOf]
  by_cases hk : k = i
  · subst hk
    have hbefore : ¬ Ended events k := fun hended ↦ hopen (hended stream)
    have hfile := (h.kept k session hsession).file
    simp only [if_neg fun hmem : Ended events k ∧ _ ↦ hbefore hmem.1] at hfile
    have hmuxed := h.muxed k
    rw [if_neg hbefore] at hmuxed
    by_cases hended : Ended (events ++ [.complete k stream]) k
    · rw [if_pos hended, if_pos hended, List.filter_append, hmuxed, hfile, hfile]
      simp [muxOf]
    · rw [if_neg hended, if_neg hended, hmuxed]
  · have hsame : Ended (events ++ [.complete i stream]) k ↔ Ended events k :=
      ended_concat fun _ heq ↦ hk (Event.complete.inj heq).1.symm
    have hfilter : (if Ended (events ++ [.complete i stream]) i then world.muxed ++
        [⟨i, world.files (pathOf i .audio), world.files (pathOf i .video)⟩]
      else world.muxed).filter (·.session = k) = world.muxed.filter (·.session = k) := by
      split
      · rw [List.filter_append]
        simp [Ne.symm hk]
      · rfl
    rw [hfilter, h.muxed k]
    simp only [hsame]

theorem inv_complete (h : Inv events world) (hsession : world.sessions[i]? = some session)
    (hrunning : session.phase stream = .running) (hvideo : session.video = some video)
    {fds : ℕ → Option ℕ}
    (hfds : ∀ fd path, fds fd = some path ↔
      world.fds fd = some path ∧ (session.isDash = true ∨ path ≠ pathOf i stream)) :
    Inv (events ++ [.complete i stream])
      ((streamDone i stream session video { world with fds := fds }).2.setSession i
        { (streamDone i stream session video { world with fds := fds }).1 with
          cliCtx := Function.update session.cliCtx stream none
          phase := Function.update session.phase stream .stopping }) := by
  have hkept := h.kept i session hsession
  have hopen := hkept.not_mem hrunning
  have hlive : Live events world i session video := by
    obtain ⟨also, halso, hlive⟩ := hkept.isSome hopen
    rwa [Option.some.inj (hvideo.symm.trans halso)]
  rw [streamDone_eq hlive]
  have hpath {k : ℕ} {other : Stream} (hne : ¬ (k = i ∧ other = stream)) :
      pathOf k other ≠ pathOf i stream := mt (Iff.mp pathOf_inj) hne
  have htouches {after : Session} {files : ℕ → Option Bytes} {muxed : List Mux}
      (hfiles : ∀ k other, k ≠ i → files (pathOf k other) = world.files (pathOf k other)) :
      Touches i (.complete i stream) world
        (World.setSession i after { world with fds := fds, files := files, muxed := muxed }) := by
    refine ⟨fun k other hk heq ↦ hk (Event.complete.inj heq).1.symm, fun _ _ _ ↦ rfl, rfl, rfl,
      hfiles,
      fun k fd other hk ↦ ?_, fun fd path hfd ↦ ((hfds fd path).mp hfd).1⟩
    exact (hfds _ _).trans (and_iff_left (.inr (hpath fun heq ↦ hk heq.1)))
  have hmuxed := muxed_complete h hsession hopen
  have hphase (other : Stream) : .complete i other ∈ events ++ [.complete i stream] ↔
      Function.update session.phase stream .stopping other = .stopping ∨
        Function.update session.phase stream .stopping other = .freed := by
    rw [mem_concat_complete]
    by_cases hother : other = stream
    · simp [hother]
    · rw [Function.update_of_ne hother, or_iff_right hother, hkept.phase]
  have hloading (hloading : Function.update session.phase stream .stopping .audio = .loading) :
      Function.update session.phase stream .stopping .video = .absent := by
    cases stream with
    | audio =>
      rw [Function.update_self] at hloading
      exact nomatch hloading
    | video =>
      rw [Function.update_of_ne (by decide)] at hloading
      have habsent := hkept.loading hloading
      rw [hrunning] at habsent
      exact nomatch habsent
  have hctx (other : Stream) : Function.update session.cliCtx stream none other = none ↔
      session.isDash = true ∨ .complete i other ∈ events ++ [.complete i stream] := by
    rw [mem_concat_complete]
    by_cases hother : other = stream
    · simp [hother]
    · rw [Function.update_of_ne hother, or_iff_right hother, hkept.cliCtx]
  have hopened (other : Stream) : (∃ fd, fds fd = some (pathOf i other)) ↔
      session.isDash = true ∨ .complete i other ∉ events ++ [.complete i stream] := by
    simp only [hfds, exists_and_right, hkept.opened, mem_concat_complete, ne_eq, pathOf_inj,
      true_and]
    tauto
  have hdata (other : Stream) :
      dataOf (events ++ [.complete i stream]) i other = dataOf events i other := by
    rw [dataOf_concat]
    exact List.append_nil _
  have hfile := hkept.file
  simp only [if_neg fun hmem : Ended events i ∧ _ ↦ hopen (hmem.1 stream)] at hfile
  by_cases hended : Ended (events ++ [.complete i stream]) i
  · simp only [if_pos hended] at hmuxed ⊢
    have hother (k : ℕ) (other : Stream) (hk : k ≠ i) :
        (if world.isDebug then world.files else Function.update
          (Function.update world.files (pathOf i .audio) none) (pathOf i .video) none)
            (pathOf k other) = world.files (pathOf k other) := by
      split
      · rfl
      · rw [Function.update_of_ne (mt (Iff.mp pathOf_inj) fun heq ↦ hk heq.1),
          Function.update_of_ne (mt (Iff.mp pathOf_inj) fun heq ↦ hk heq.1)]
    have hunlinked (other : Stream) :
        (if world.isDebug then world.files else Function.update
          (Function.update world.files (pathOf i .audio) none) (pathOf i .video) none)
            (pathOf i other) =
          if world.isDebug = false then none else some (dataOf events i other) := by
      cases world.isDebug with
      | false =>
        cases other with
        | audio =>
          refine (Function.update_of_ne ?_ _ _).trans (Function.update_self ..)
          exact mt (Iff.mp pathOf_inj) (nomatch ·.2)
        | video => exact Function.update_self ..
      | true => exact hfile other
    refine h.touch hsession (htouches hother) rfl ⟨hphase, hloading, fun hmem ↦ absurd hended hmem,
      fun _ ↦ rfl, hctx, fun other ↦ ?_, hopened⟩ hmuxed
    rw [hdata, if_congr (and_iff_right hended) rfl rfl]
    exact hunlinked other
  · simp only [if_neg hended] at hmuxed ⊢
    have hne {other : Stream} (hother : .complete i other ∉ events ++ [.complete i stream]) :
        other ≠ stream ∧ .complete i other ∉ events := by
      rwa [mem_concat_complete, not_or] at hother
    refine h.touch hsession (htouches fun _ _ _ ↦ rfl) rfl
      ⟨hphase, hloading, fun _ ↦ ⟨_, rfl, fun other ↦ ?_, hlive.path, fun other hother ↦ ?_,
        fun hdash other hother ↦ ?_⟩, fun hmem ↦ absurd hmem hended, hctx, fun other ↦ ?_,
          hopened⟩ hmuxed
    · rw [mem_concat_complete, ← hlive.isDone]
      dsimp only
      by_cases hother : other = stream
      · simp [hother]
      · rw [Function.update_of_ne hother, or_iff_right hother]
    · refine (hfds _ _).mpr ⟨hlive.fd other (hne hother).2, .inr ?_⟩
      exact hpath fun heq ↦ (hne hother).1 heq.2
    · dsimp only
      rw [Function.update_of_ne (hne hother).1, hlive.cliCtx hdash other (hne hother).2]
    · rw [if_neg fun hmem ↦ hended hmem.1, hdata]
      exact hfile other

theorem inv_dashComplete (h : Inv events world) (hsession : world.sessions[i]? = some session)
    (hrunning : session.phase stream = .running) (hdash : session.isDash = true) :
    ∃ next, dashComplete i stream session world = some next ∧
      Inv (events ++ [.complete i stream]) next := by
  have hkept := h.kept i session hsession
  obtain ⟨video, hvideo, -⟩ := hkept.isSome (hkept.not_mem hrunning)
  have hctx : Function.update session.cliCtx stream none = session.cliCtx := by
    rw [Function.update_eq_self_iff]
    exact ((hkept.cliCtx stream).mpr (.inl hdash)).symm
  have hinv := inv_complete h hsession hrunning hvideo
    fun fd path ↦ (and_iff_left (.inl hdash) : world.fds fd = some path ∧ _ ↔ _).symm
  refine ⟨_, ?_, hinv⟩
  have hcliCtx : session.cliCtx = (streamDone i stream session video world).1.cliCtx :=
    (streamDone_cliCtx world).symm
  have heq : dashComplete i stream session world =
      some ((streamDone i stream session video world).2.setSession i
        { (streamDone i stream session video world).1 with
          phase := Function.update (streamDone i stream session video world).1.phase stream
            .stopping }) := by
    rw [dashComplete, hvideo]
    rfl
  rw [heq, hctx, streamDone_phase, hcliCtx]

theorem inv_mediaComplete (h : Inv events world) (hsession : world.sessions[i]? = some session)
    (hrunning : session.phase stream = .running) (hdash : session.isDash = false) :
    ∃ next, mediaComplete i stream session world = some next ∧
      Inv (events ++ [.complete i stream]) next := by
  have hkept := h.kept i session hsession
  have hopen := hkept.not_mem hrunning
  obtain ⟨video, hvideo, hlive⟩ := hkept.isSome hopen
  have hctx := hlive.cliCtx hdash stream hopen
  have hfds (fd path : ℕ) : Function.update world.fds (video.fd stream) none fd = some path ↔
      world.fds fd = some path ∧ (session.isDash = true ∨ path ≠ pathOf i stream) := by
    by_cases hfd : fd = video.fd stream
    · subst hfd
      rw [Function.update_self, hlive.fd stream hopen, Option.some_inj, hdash]
      simp [eq_comm]
    · rw [Function.update_of_ne hfd]
      refine (and_iff_left_of_imp fun hpath ↦ .inr ?_).symm
      rintro rfl
      exact hfd (h.distinct fd _ _ hpath (hlive.fd stream hopen))
  refine ⟨_, ?_, inv_complete h hsession hrunning hvideo hfds⟩
  let base := world.close (video.fd stream)
  have heq : mediaComplete i stream session world =
      some ((streamDone i stream session video base).2.setSession i
        { (streamDone i stream session video base).1 with
          cliCtx := Function.update (streamDone i stream session video base).1.cliCtx stream none
          phase := Function.update (streamDone i stream session video base).1.phase stream
            .stopping }) := by
    rw [mediaComplete, hctx, hvideo]
    rfl
  rw [heq, streamDone_cliCtx, streamDone_phase]
  rfl

theorem inv_data (h : Inv events world) (hsession : world.sessions[i]? = some session)
    (hrunning : session.phase stream = .running) (buf : Bytes) (written : ℕ) :
    ∃ next, handle world (.data i stream buf written) = some next ∧
      Inv (events ++ [.data i stream buf written]) next := by
  have hkept := h.kept i session hsession
  have hopen := hkept.not_mem hrunning
  obtain ⟨video, hvideo, hlive⟩ := hkept.isSome hopen
  refine ⟨_, ?_, inv_write h hsession (hlive.fd stream hopen) hopen buf written⟩
  rw [handle, hsession, Option.bind_eq_bind, Option.bind_some]
  cases hdash : session.isDash with
  | true => rw [if_pos rfl, dashPipe, hvideo, Option.bind_eq_bind, Option.bind_some]
  | false =>
    rw [if_neg Bool.false_ne_true, mediaPipe, hlive.cliCtx hdash stream hopen, hvideo]
    rfl

/-- A callback that the library makes is defined, and keeps the invariant. -/
theorem inv_handle (h : Inv events world) (hmakes : world.makes event = true) :
    ∃ next, handle world event = some next ∧ Inv (events ++ [event]) next := by
  have hfind {i : ℕ} {phase : Session → Bool} (hany : world.sessions[i]?.any phase = true) :
      ∃ session, world.sessions[i]? = some session ∧ phase session = true := by
    simpa only [Option.any_eq_true] using hany
  cases event with
  | infoComplete isDash videoFd audioFd =>
    simp only [World.makes, Bool.and_eq_true, decide_eq_true_eq] at hmakes
    exact ⟨_, rfl, inv_infoComplete h isDash hmakes.1.1 hmakes.1.2 hmakes.2⟩
  | manifest i =>
    obtain ⟨session, hsession, hphase⟩ := hfind hmakes
    refine ⟨_, ?_, inv_manifest h hsession (of_decide_eq_true hphase)⟩
    rw [handle, hsession, Option.map_some]
  | data i stream buf written =>
    obtain ⟨session, hsession, hphase⟩ := hfind hmakes
    exact inv_data h hsession (of_decide_eq_true hphase) buf written
  | complete i stream =>
    obtain ⟨session, hsession, hphase⟩ := hfind hmakes
    rw [handle, hsession, Option.bind_eq_bind, Option.bind_some]
    cases hdash : session.isDash with
    | true => exact inv_dashComplete h hsession (of_decide_eq_true hphase) hdash
    | false => exact inv_mediaComplete h hsession (of_decide_eq_true hphase) hdash
  | close i stream =>
    obtain ⟨session, hsession, hphase⟩ := hfind hmakes
    refine ⟨_, ?_, inv_close h hsession (of_decide_eq_true hphase)⟩
    rw [handle, hsession, Option.map_some]

end Invariant

/-! ## Runs -/

theorem streamDone_isDebug {i : ℕ} {stream : Stream} {session : Session} {video : Video}
    {world : World} :
    (streamDone i stream session video world).2.isDebug = world.isDebug := by
  rw [streamDone]
  split
  · rw [muxAndFree]
    dsimp only
    split
    · rfl
    · rfl
  · rfl

theorem write_isDebug {fd written : ℕ} {buf : Bytes} {world : World} :
    (world.write fd buf written).isDebug = world.isDebug := by
  rw [World.write]
  split
  · rfl
  · rfl

theorem handle_isDebug {world next : World} {event : Event} (h : handle world event = some next) :
    next.isDebug = world.isDebug := by
  cases event with
  | infoComplete =>
    obtain rfl := Option.some.inj h
    rfl
  | manifest | close =>
    obtain ⟨session, -, rfl⟩ := Option.map_eq_some_iff.mp h
    rfl
  | data =>
    obtain ⟨session, -, h⟩ := Option.bind_eq_some_iff.mp h
    split at h
    · obtain ⟨video, -, h⟩ := Option.bind_eq_some_iff.mp h
      rw [← Option.some.inj h, write_isDebug]
    · obtain ⟨fd, -, h⟩ := Option.bind_eq_some_iff.mp h
      obtain ⟨video, -, h⟩ := Option.bind_eq_some_iff.mp h
      rw [← Option.some.inj h, write_isDebug]
  | complete =>
    obtain ⟨session, -, h⟩ := Option.bind_eq_some_iff.mp h
    split at h
    · obtain ⟨video, -, h⟩ := Option.bind_eq_some_iff.mp h
      rw [← Option.some.inj h]
      exact streamDone_isDebug
    · obtain ⟨fd, -, h⟩ := Option.bind_eq_some_iff.mp h
      obtain ⟨video, -, h⟩ := Option.bind_eq_some_iff.mp h
      rw [← Option.some.inj h]
      exact streamDone_isDebug

theorem inv_run {isDebug : Bool} {events : List Event} {last : World}
    (hrun : run step (World.initial isDebug) events = some last) :
    Inv events last ∧ last.isDebug = isDebug := by
  induction events using List.reverseRecOn generalizing last with
  | nil =>
    obtain rfl := Option.some.inj hrun
    exact ⟨inv_initial isDebug, rfl⟩
  | append_singleton events event ih =>
    rw [run_append] at hrun
    obtain ⟨world, hworld, hlast⟩ := Option.bind_eq_some_iff.mp hrun
    rw [run_cons] at hlast
    obtain ⟨next, hnext, hlast⟩ := Option.bind_eq_some_iff.mp hlast
    obtain rfl := Option.some.inj hlast
    obtain ⟨hinv, hdebug⟩ := ih hworld
    rw [step] at hnext
    split at hnext
    · rename_i hmakes
      obtain ⟨after, hafter, hkept⟩ := inv_handle hinv hmakes
      rw [hafter] at hnext
      obtain rfl := Option.some.inj hnext
      exact ⟨hkept, (handle_isDebug hafter).trans hdebug⟩
    · exact nomatch hnext

section Results

variable {isDebug : Bool} {events : List Event} {last : World}

/-- What belongs to a video is freed when it is needed no more, except the two descriptors of a
video with a manifest, which are never closed. -/
theorem released {i : ℕ} {session : Session}
    (hrun : run step (World.initial isDebug) events = some last)
    (hsession : last.sessions[i]? = some session) :
    (session.video = none ↔ Ended events i) ∧
      ∀ stream, (session.cliCtx stream = none ↔
          session.isDash = true ∨ .complete i stream ∈ events) ∧
        ((∃ fd, last.fds fd = some (pathOf i stream)) ↔
          session.isDash = true ∨ .complete i stream ∉ events) := by
  have hkept := (inv_run hrun).1.kept i session hsession
  refine ⟨⟨fun hvideo ↦ ?_, hkept.ended⟩, fun stream ↦ ⟨hkept.cliCtx stream, hkept.opened stream⟩⟩
  by_contra hended
  obtain ⟨video, hsome, -⟩ := hkept.live hended
  rw [hvideo] at hsome
  exact nomatch hsome

theorem released_manifest : ∃ last, ∃ session : Session,
    run step (World.initial false)
      [.infoComplete true 3 4, .manifest 0, .complete 0 .audio, .complete 0 .video] = some last ∧
      session.video = none ∧ ∃ fd, last.fds fd = some 1 :=
  have h := @released false
    [.infoComplete true 3 4, .manifest 0, .complete 0 .audio, .complete 0 .video] _ 0 _ rfl rfl
  ⟨_, _, rfl, h.1.mpr (by decide), (h.2 .audio).2.mpr (.inl rfl)⟩

end Results

end LibYtdl.Cli.Downloads
