import LibYtdl.Mux.MuxFiles

/-!
# The order of the packets

The mux loop writes the packets of two inputs into one output. Seen from the output, they are the
packets of the two selected streams, each stream in the order of its file; and while both inputs go
on, the next packet is one of the stream that is behind.
-/

namespace LibYtdl.Mux.Interleaving

open Machine MuxFiles

/-! ## The output of a loop -/

/-- The packets that one round writes. -/
def roundPackets (env : Ffmpeg) (audioSt videoSt : ℕ) (loop : Loop) : List Packet :=
  let next := muxRound env audioSt videoSt loop
  next.audio.written.drop loop.audio.written.length ++
    next.video.written.drop loop.video.written.length

/-- The states of the loop in which a round is started. -/
def muxStates (env : Ffmpeg) (audioSt videoSt : ℕ) : ℕ → Loop → List Loop
  | 0, _ => []
  | fuel + 1, loop =>
    if loop.audio.encode ∨ loop.video.encode then
      loop :: muxStates env audioSt videoSt fuel (muxRound env audioSt videoSt loop)
    else
      []

/-- What is written from some states on. -/
def output (env : Ffmpeg) (audioSt videoSt : ℕ) (states : List Loop) : List Packet :=
  states.flatMap (roundPackets env audioSt videoSt)

/-- The timestamp that was written last for a stream of the output, zero before its first packet. -/
def lastPts (written : List Packet) (idx : ℕ) : ℤ :=
  ((written.filter (·.streamIndex = idx)).getLast?.map Packet.pts).getD 0

/-- `av_compare_ts` is a total preorder of the timestamps, each with the stream whose time base it
is in. -/
structure ComparesBy (env : Ffmpeg) (le : ℕ × ℤ → ℕ × ℤ → Prop) : Prop where
  total : ∀ first second, le first second ∨ le second first
  trans : ∀ {first second third}, le first second → le second third → le first third
  compare : ∀ audio video, env.compareTs audio video ≤ 0 ↔ le (0, audio) (1, video)

/-- The stream is not ahead of the other one; on a tie it is the audio stream. -/
structure Behind (le : ℕ × ℤ → ℕ × ℤ → Prop) (written : List Packet) (idx : ℕ) : Prop where
  notLater : le (idx, lastPts written idx) (1 - idx, lastPts written (1 - idx))
  tie : idx ≠ 0 → ¬ le (0, lastPts written 0) (1, lastPts written 1)

section Proofs

variable {env : Ffmpeg} {le : ℕ × ℤ → ℕ × ℤ → Prop} {audioSt videoSt : ℕ}

/-! ## One round -/

/-- What the output has of a stream is what was written of it, and its clock is the timestamp of the
last packet. -/
structure Copied (env : Ffmpeg) (st idx : ℕ) (all : List Packet) (track : Track)
    (written : List Packet) : Prop where
  fine : Fine env st idx all track
  copied : written.filter (·.streamIndex = idx) = track.written
  clock : track.nextPts = lastPts written idx

theorem filter_append_of_ne {written packets : List Packet} {idx : ℕ}
    (h : ∀ packet ∈ packets, packet.streamIndex ≠ idx) :
    (written ++ packets).filter (·.streamIndex = idx) =
      written.filter (·.streamIndex = idx) := by
  have hnone : packets.filter (·.streamIndex = idx) = [] :=
    List.filter_eq_nil_iff.mpr fun packet hpacket ↦ by simpa using h packet hpacket
  rw [List.filter_append, hnone, List.append_nil]

/-- Packets of the other stream change nothing. -/
theorem Copied.frame {st idx : ℕ} {all written packets : List Packet} {track : Track}
    (h : Copied env st idx all track written)
    (hne : ∀ packet ∈ packets, packet.streamIndex ≠ idx) :
    Copied env st idx all track (written ++ packets) := by
  refine ⟨h.fine, ?_, ?_⟩
  · rw [filter_append_of_ne hne, h.copied]
  · rw [lastPts, filter_append_of_ne hne, ← lastPts, h.clock]

/-- The packets that a call of `ytdl__mux_write_frame` writes are of its stream, and the output has
them behind the others. -/
theorem Copied.step (hwrites : ∀ call, 0 ≤ env.writeFrame call)
    (hindex : ∀ idx packet, (env.rescaleTs idx packet).streamIndex = packet.streamIndex)
    {st idx : ℕ} {all written : List Packet} {track : Track}
    (h : Copied env st idx all track written) (calls : ℕ) :
    let next := (muxWriteFrame env st idx track calls).1
    let packets := next.written.drop track.written.length
    packets.length ≤ 1 ∧ (∀ packet ∈ packets, packet.streamIndex = idx) ∧
      Copied env st idx all next (written ++ packets) := by
  intro next packets
  have hfine : Fine env st idx all next := by
    obtain ⟨hfine, -⟩ | ⟨-, hfail, -⟩ := muxWriteFrame_fine calls h.fine
    · exact hfine
    · exact absurd (hwrites calls) (not_le.mpr hfail)
  have hsilent (hwritten : next.written = track.written) (hclock : next.nextPts = track.nextPts) :
      packets.length ≤ 1 ∧ (∀ packet ∈ packets, packet.streamIndex = idx) ∧
        Copied env st idx all next (written ++ packets) := by
    have hnone : packets = [] := by
      rw [show packets = next.written.drop track.written.length from rfl, hwritten,
        List.drop_length]
    rw [hnone, List.append_nil]
    exact ⟨Nat.zero_le 1, fun packet hpacket ↦ absurd hpacket List.not_mem_nil, hfine,
      h.copied.trans hwritten.symm, hclock.trans h.clock⟩
  obtain ⟨-, heq⟩ | ⟨packet, rest, -, ⟨-, heq⟩ | ⟨-, hfail, -⟩ | ⟨-, -, heq⟩⟩ :=
    muxWriteFrame_cases env st idx track calls
  · exact hsilent (by rw [show next = _ from congrArg Prod.fst heq])
      (by rw [show next = _ from congrArg Prod.fst heq])
  · exact hsilent (by rw [show next = _ from congrArg Prod.fst heq])
      (by rw [show next = _ from congrArg Prod.fst heq])
  · exact absurd (hwrites calls) (not_le.mpr hfail)
  · have hnext : next = _ := congrArg Prod.fst heq
    have hout : (outPacket env idx packet).streamIndex = idx := hindex idx _
    have hpackets : packets = [outPacket env idx packet] := by
      rw [show packets = next.written.drop track.written.length from rfl, hnext]
      exact List.drop_left
    have hfilter : (written ++ packets).filter (·.streamIndex = idx) =
        track.written ++ [outPacket env idx packet] := by
      rw [List.filter_append, h.copied, hpackets, List.filter_singleton]
      simp [hout]
    refine ⟨(congrArg List.length hpackets).le, fun other hother ↦ ?_, hfine, ?_, ?_⟩
    · rw [hpackets, List.mem_singleton] at hother
      rw [hother, hout]
    · rw [hfilter, hnext]
    · rw [lastPts, hfilter, List.getLast?_concat, hnext]
      rfl

/-- What the output is, in a state of the loop. -/
structure Recorded (env : Ffmpeg) (audioSt videoSt : ℕ) (audio video : List Packet)
    (written : List Packet) (loop : Loop) : Prop where
  audio : Copied env audioSt 0 audio loop.audio written
  video : Copied env videoSt 1 video loop.video written
  index : ∀ packet ∈ written, packet.streamIndex = 0 ∨ packet.streamIndex = 1

section Rounds

variable (hwrites : ∀ call, 0 ≤ env.writeFrame call)
  (hindex : ∀ idx packet, (env.rescaleTs idx packet).streamIndex = packet.streamIndex)
  {audio video written : List Packet} {loop : Loop}

include hwrites hindex

/-- A round writes for one stream, and the other one keeps its clock and its packets. -/
theorem Recorded.round (h : Recorded env audioSt videoSt audio video written loop)
    (hgoes : loop.audio.encode = true ∨ loop.video.encode = true) :
    Recorded env audioSt videoSt audio video (written ++ roundPackets env audioSt videoSt loop)
        (muxRound env audioSt videoSt loop) ∧
      (roundPackets env audioSt videoSt loop).length ≤ 1 ∧ ∃ idx,
        (∀ packet ∈ roundPackets env audioSt videoSt loop, packet.streamIndex = idx) ∧
        ((idx = 0 ∧ loop.audio.encode = true ∧ (loop.video.encode = true →
            env.compareTs (lastPts written 0) (lastPts written 1) ≤ 0)) ∨
          (idx = 1 ∧ loop.video.encode = true ∧ (loop.audio.encode = true →
            ¬ env.compareTs (lastPts written 0) (lastPts written 1) ≤ 0))) := by
  rw [← h.audio.clock, ← h.video.clock]
  obtain ⟨hencode, hcompare, heq⟩ | ⟨hencode, hcompare, heq⟩ :=
    muxRound_cases env audioSt videoSt hgoes
  · obtain ⟨hone, hpackets, hcopied⟩ := h.audio.step hwrites hindex loop.calls
    have hround : roundPackets env audioSt videoSt loop =
        (muxWriteFrame env audioSt 0 loop.audio loop.calls).1.written.drop
          loop.audio.written.length := by
      simp [roundPackets, heq]
    rw [hround, heq]
    refine ⟨⟨hcopied, h.video.frame fun packet hpacket ↦ ?_, fun packet hpacket ↦ ?_⟩,
      hone, 0, hpackets, .inl ⟨rfl, hencode, hcompare⟩⟩
    · rw [hpackets packet hpacket]
      exact Nat.zero_ne_one
    · obtain hold | hnew := List.mem_append.mp hpacket
      · exact h.index packet hold
      · exact .inl (hpackets packet hnew)
  · obtain ⟨hone, hpackets, hcopied⟩ := h.video.step hwrites hindex loop.calls
    have hround : roundPackets env audioSt videoSt loop =
        (muxWriteFrame env videoSt 1 loop.video loop.calls).1.written.drop
          loop.video.written.length := by
      simp [roundPackets, heq]
    rw [hround, heq]
    refine ⟨⟨h.audio.frame fun packet hpacket ↦ ?_, hcopied, fun packet hpacket ↦ ?_⟩,
      hone, 1, hpackets, .inr ⟨rfl, hencode, hcompare⟩⟩
    · rw [hpackets packet hpacket]
      exact Nat.one_ne_zero
    · obtain hold | hnew := List.mem_append.mp hpacket
      · exact h.index packet hold
      · exact .inr (hpackets packet hnew)

/-- While both streams go on, a round writes for the one that is behind. -/
theorem Recorded.behind (h : Recorded env audioSt videoSt audio video written loop)
    (hcompare : ComparesBy env le) (haudio : loop.audio.encode = true)
    (hvideo : loop.video.encode = true) :
    ∀ packet ∈ roundPackets env audioSt videoSt loop, Behind le written packet.streamIndex := by
  intro packet hpacket
  obtain ⟨-, -, idx, hidx, ⟨rfl, -, hturn⟩ | ⟨rfl, -, hturn⟩⟩ :=
    h.round hwrites hindex (.inl haudio)
  · rw [hidx packet hpacket]
    have hle := (hcompare.compare _ _).mp (hturn hvideo)
    exact ⟨hle, fun hne ↦ absurd rfl hne⟩
  · rw [hidx packet hpacket]
    have hnot := mt (hcompare.compare _ _).mpr (hturn haudio)
    exact ⟨(hcompare.total _ _).resolve_left hnot, fun _ ↦ hnot⟩

/-! ## The whole loop -/

/-- What is known of every state in which a round starts. -/
theorem recorded_muxStates {fuel : ℕ} {first rest : List Loop} {state : Loop}
    (h : Recorded env audioSt videoSt audio video written loop)
    (hstates : muxStates env audioSt videoSt fuel loop = first ++ state :: rest) :
    Recorded env audioSt videoSt audio video (written ++ output env audioSt videoSt first) state ∧
      (state.audio.encode = true ∨ state.video.encode = true) := by
  induction fuel generalizing loop written first with
  | zero => simp [muxStates] at hstates
  | succ fuel ih =>
    rw [muxStates] at hstates
    split at hstates
    · next hgoes =>
      cases first with
      | nil =>
        obtain ⟨rfl, -⟩ := List.cons.inj hstates
        exact ⟨by simpa [output] using h, hgoes⟩
      | cons head first =>
        obtain ⟨rfl, hrest⟩ := List.cons.inj hstates
        rw [output, List.flatMap_cons, ← List.append_assoc, ← output]
        exact ih (h.round hwrites hindex hgoes).1 hrest
    · simp at hstates

/-- What is known of the state in which the loop stops. -/
theorem recorded_muxLoop (fuel : ℕ)
    (h : Recorded env audioSt videoSt audio video written loop) :
    Recorded env audioSt videoSt audio video
      (written ++ output env audioSt videoSt (muxStates env audioSt videoSt fuel loop))
      (muxLoop env audioSt videoSt fuel loop) := by
  induction fuel generalizing loop written with
  | zero => simpa [muxStates, muxLoop, output] using h
  | succ fuel ih =>
    rw [muxStates, muxLoop]
    split
    · next hgoes =>
      rw [output, List.flatMap_cons, ← List.append_assoc, ← output]
      exact ih (h.round hwrites hindex hgoes).1
    · simpa [output] using h

end Rounds

/-- A stream that has stopped gets no more packets. -/
theorem Copied.stopped {st idx : ℕ} {all written more : List Packet} {track last : Track}
    (h : Copied env st idx all track written) (hencode : track.encode = false)
    (hlast : Copied env st idx all last (written ++ more)) :
    ∀ packet ∈ more, packet.streamIndex ≠ idx := by
  have hpending : track.pending env st idx = [] := by
    simp [Track.pending, h.fine.finished hencode]
  have hall := h.fine.written
  rw [hpending, List.append_nil, ← h.copied] at hall
  have htotal := hlast.fine.written
  rw [← hlast.copied, List.filter_append, ← hall, List.append_assoc,
    List.append_right_eq_self] at htotal
  have hnone := (List.append_eq_nil_iff.mp htotal).1
  exact fun packet hpacket hidx ↦ List.filter_eq_nil_iff.mp hnone packet hpacket (by simp [hidx])

/-- Where one piece of an output comes from, when each part has at most one. -/
theorem flatMap_eq_append_cons {α β : Type*} {f : α → List β} {parts : List α}
    (hone : ∀ part ∈ parts, (f part).length ≤ 1) {before after : List β} {piece : β}
    (h : parts.flatMap f = before ++ piece :: after) :
    ∃ first part rest, parts = first ++ part :: rest ∧ f part = [piece] ∧
      first.flatMap f = before ∧ rest.flatMap f = after := by
  induction parts generalizing before with
  | nil => simp at h
  | cons part parts ih =>
    obtain ⟨hpart, hparts⟩ := List.forall_mem_cons.mp hone
    rw [List.flatMap_cons] at h
    cases hf : f part with
    | nil =>
      rw [hf, List.nil_append] at h
      obtain ⟨first, found, rest, rfl, hfound, hfirst, hrest⟩ := ih hparts h
      exact ⟨part :: first, found, rest, rfl, hfound, by simp [hf, hfirst], hrest⟩
    | cons own others =>
      rw [hf, List.length_cons] at hpart
      obtain rfl := List.eq_nil_of_length_eq_zero (Nat.le_zero.mp (Nat.le_of_succ_le_succ hpart))
      rw [hf, List.singleton_append] at h
      cases before with
      | nil =>
        obtain ⟨rfl, hrest⟩ := List.cons.inj h
        exact ⟨[], part, parts, rfl, hf, rfl, hrest⟩
      | cons head before =>
        obtain ⟨rfl, hrest⟩ := List.cons.inj h
        obtain ⟨first, found, rest, rfl, hfound, hfirst, hrest⟩ := ih hparts hrest
        exact ⟨part :: first, found, rest, rfl, hfound, by simp [hf, hfirst], hrest⟩

/-- The packets of a selected stream, as they are to be written. -/
def selected (env : Ffmpeg) (st idx : ℕ) (input : Input) : List Packet :=
  (input.packets.filter (·.streamIndex = st)).map (outPacket env idx)

/-- The packets are those of two streams of the output, each in its order. -/
structure Interleaved (packets audio video : List Packet) : Prop where
  audio : packets.filter (·.streamIndex = 0) = audio
  video : packets.filter (·.streamIndex = 1) = video
  index : ∀ packet ∈ packets, packet.streamIndex = 0 ∨ packet.streamIndex = 1

theorem recorded_start (env : Ffmpeg) (audioSt videoSt : ℕ) :
    Recorded env audioSt videoSt (selected env audioSt 0 env.audio)
      (selected env videoSt 1 env.video) [] (Loop.start env) := by
  refine ⟨⟨⟨rfl, fun hencode ↦ ?_⟩, rfl, rfl⟩, ⟨⟨rfl, fun hencode ↦ ?_⟩, rfl, rfl⟩,
    fun packet hpacket ↦ absurd hpacket List.not_mem_nil⟩
  · exact absurd (show true = false from hencode) (by decide)
  · exact absurd (show true = false from hencode) (by decide)

/-- **Every packet once.** The loop stops; what it wrote is an interleaving of the packets of the
two selected streams; and while both inputs go on, or have a packet left, the next packet is one of
the stream that is behind. -/
theorem muxes_once (hwrites : ∀ call, 0 ≤ env.writeFrame call)
    (hindex : ∀ idx packet, (env.rescaleTs idx packet).streamIndex = packet.streamIndex)
    (hcompare : ComparesBy env le) (audioSt videoSt : ℕ) :
    let states := muxStates env audioSt videoSt (loopFuel env) (Loop.start env)
    let last := muxLoop env audioSt videoSt (loopFuel env) (Loop.start env)
    let packets := output env audioSt videoSt states
    (last.audio.encode = false ∧ last.video.encode = false) ∧
      Interleaved packets (selected env audioSt 0 env.audio) (selected env videoSt 1 env.video) ∧
      (∀ first loop rest, states = first ++ loop :: rest →
        loop.audio.encode = true → loop.video.encode = true →
        ∀ packet ∈ roundPackets env audioSt videoSt loop,
          Behind le (output env audioSt videoSt first) packet.streamIndex) ∧
      ∀ before packet after, packets = before ++ packet :: after →
        (∃ audio ∈ packet :: after, audio.streamIndex = 0) →
        (∃ video ∈ packet :: after, video.streamIndex = 1) →
        Behind le before packet.streamIndex := by
  intro states last packets
  have hstart := recorded_start env audioSt videoSt
  have hlast := recorded_muxLoop hwrites hindex (loopFuel env) hstart
  have hstops := muxLoop_stops env audioSt videoSt (rounds_start_le env)
  rw [List.nil_append] at hlast
  have hrounds (first : List Loop) (loop : Loop) (rest : List Loop)
      (hstates : states = first ++ loop :: rest) :
      Recorded env audioSt videoSt (selected env audioSt 0 env.audio)
          (selected env videoSt 1 env.video) (output env audioSt videoSt first) loop ∧
        (loop.audio.encode = true ∨ loop.video.encode = true) := by
    have hrecorded := recorded_muxStates hwrites hindex hstart hstates
    rwa [List.nil_append] at hrecorded
  have hall {st idx : ℕ} {all : List Packet} {track : Track}
      (h : Copied env st idx all track packets) (hencode : track.encode = false) :
      packets.filter (·.streamIndex = idx) = all := by
    have hpending : track.pending env st idx = [] := by
      simp [Track.pending, h.fine.finished hencode]
    rw [h.copied, ← h.fine.written, hpending, List.append_nil]
  refine ⟨hstops, ⟨hall hlast.audio hstops.1, hall hlast.video hstops.2, hlast.index⟩, ?_, ?_⟩
  · intro first loop rest hstates haudio hvideo
    exact (hrounds first loop rest hstates).1.behind hwrites hindex hcompare haudio hvideo
  · intro before packet after hpackets haudio hvideo
    have hone : ∀ loop ∈ states, (roundPackets env audioSt videoSt loop).length ≤ 1 := by
      intro loop hloop
      obtain ⟨first, rest, hstates⟩ := List.append_of_mem hloop
      obtain ⟨hrecorded, hgoes⟩ := hrounds first loop rest hstates
      exact (hrecorded.round hwrites hindex hgoes).2.1
    obtain ⟨first, loop, rest, hstates, hpacket, rfl, rfl⟩ := flatMap_eq_append_cons hone hpackets
    have hrecorded := (hrounds first loop rest hstates).1
    -- a stream that still gets a packet has not stopped
    have hgoes {st idx : ℕ} {all : List Packet} {track track' : Track}
        (h : Copied env st idx all track (output env audioSt videoSt first))
        (h' : Copied env st idx all track' packets)
        (hleft : ∃ other ∈ packet :: rest.flatMap (roundPackets env audioSt videoSt),
          other.streamIndex = idx) : track.encode = true := by
      by_contra hencode
      rw [hpackets] at h'
      obtain ⟨other, hother, hidx⟩ := hleft
      exact h.stopped (Bool.eq_false_iff.mpr hencode) h' other hother hidx
    refine hrecorded.behind hwrites hindex hcompare (hgoes hrecorded.audio hlast.audio haudio)
      (hgoes hrecorded.video hlast.video hvideo) packet ?_
    rw [hpacket]
    exact List.mem_singleton_self packet

end Proofs

/-- Two inputs whose timestamps alternate, the first one with a packet of another stream. -/
def twoInputs : Ffmpeg :=
  { secondWriteFails with
    audio := goodInput .audio [⟨0, 0, [1]⟩, ⟨1, 5, [2]⟩, ⟨0, 20, [3]⟩]
    video := goodInput .video [⟨0, 10, [4]⟩]
    writeFrame := fun _ ↦ 0 }

theorem comparesBy_twoInputs : ComparesBy twoInputs fun first second ↦ first.2 ≤ second.2 :=
  ⟨fun _ _ ↦ le_total _ _, le_trans, fun _ _ ↦ sub_nonpos⟩

theorem muxes_once_twoInputs :
    Interleaved [⟨0, 0, [1]⟩, ⟨0, 20, [3]⟩, ⟨1, 10, [4]⟩]
      (selected twoInputs 0 0 twoInputs.audio) (selected twoInputs 0 1 twoInputs.video) :=
  (muxes_once (fun _ ↦ le_rfl) (fun _ _ ↦ rfl) comparesBy_twoInputs 0 0).2.1

end LibYtdl.Mux.Interleaving
