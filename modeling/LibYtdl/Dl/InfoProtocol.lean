import LibYtdl.Dl.InfoPhase

/-!
# The protocol of the info queue

While every answer can be used, the queue asks for one thing at a time and completes its videos in
the order of the calls. Every video is extracted from the answer to its own request, and gets the
actions of its own player, which come from the script received for that player.
-/

namespace LibYtdl.Dl.InfoProtocol

open InfoPhase InfoQueue Machine Transition

variable {Id Info Sig Callback : Type}

/-- The actions of a completed video are those of the map's entry for its player, and the entry was
extracted from the script received for that player. -/
structure OwnPlayer (extractors : Extractors Info Sig) (session : Session Id Info Sig Callback)
    (video : Video Id Info Sig Callback) : Prop where
  entry : video.sigActions = session.ctx.playerMap.lookup (extractors.playerUrl video.info)
  extracted : ∃ script, (extractors.playerUrl video.info, script) ∈ playerScripts session.trace ∧
    video.sigActions = some (extractors.sigActionsExtract script).2

/-- What the protocol promises of every state. -/
structure Protocol (extractors : Extractors Info Sig) (session : Session Id Info Sig Callback) :
    Prop where
  /-- At most one request is outstanding. -/
  oneOutstanding : session.outstanding.length ≤ 1
  /-- The requests are answered in order. -/
  answered : requests session.trace = (answers session.trace).map Prod.fst ++ session.outstanding
  /-- The calls are those of the completed videos, then those of the videos in the queue. -/
  inOrder :
    getInfos session.trace =
      (completed session.trace).map callOf ++ session.ctx.videos.map callOf
  /-- The documents of the completed videos are the watch pages received, in order. -/
  ownDocument : (completed session.trace).map documentOf <+: watchPages session.trace
  /-- Each info is the one extracted from the document. -/
  ownInfo : ∀ video ∈ completed session.trace,
    video.info = pageInfo extractors extractors.infoCtxInit video.response.bytes
  ownPlayer : ∀ video ∈ completed session.trace, OwnPlayer extractors session video
  /-- No player is requested again once its script has been received. -/
  scriptsDistinct : ((playerScripts session.trace).map Prod.fst).Nodup

variable {extractors : Extractors Info Sig} {session : Session Id Info Sig Callback}

theorem lookup_eq_some_mem {map : List (Bytes × Sig)} {key : Bytes} {sigActions : Sig}
    (h : map.lookup key = some sigActions) : (key, sigActions) ∈ map := by
  obtain ⟨before, after, rfl, -⟩ := List.lookup_eq_some_iff.mp h
  simp

theorem ownPlayer_of_served (history : History extractors [] session pending)
    {video : Video Id Info Sig Callback}
    (served : Served extractors session.ctx.playerMap video) :
    OwnPlayer extractors session video := by
  obtain ⟨sigActions, hlookup⟩ := Option.isSome_iff_exists.mp served.known
  have hmem := lookup_eq_some_mem hlookup
  rw [history.learned, List.nil_append] at hmem
  obtain ⟨script, hscript, heq⟩ := List.mem_map.mp hmem
  rw [Prod.mk.injEq] at heq
  refine ⟨served.sigActions, script.2, ?_, ?_⟩
  · rwa [← heq.1]
  · rw [served.sigActions, hlookup, ← heq.2]

theorem outstanding_length_le {pending : List (Id × Bytes)}
    (h : Phase extractors session pending) : session.outstanding.length ≤ 1 := by
  cases h with
  | unconnected quiet connected notIdle => simp [quiet.outstanding]
  | idle quiet connected idle empty => simp [quiet.outstanding]
  | watch video videos watch => simp [watch.outstanding]
  | player video videos player => simp [player.outstanding]

theorem protocol_of_invariant (h : Invariant extractors [] session) :
    Protocol extractors session := by
  obtain ⟨pending, hphase, history⟩ := h
  have hdistinct := history.distinct List.nodup_nil
  rw [history.learned, List.nil_append, List.map_map] at hdistinct
  exact
    { oneOutstanding := outstanding_length_le hphase
      answered := history.answered
      inOrder := history.ordered.symm
      ownDocument := ⟨pending, history.documents.symm⟩
      ownInfo := fun video hvideo ↦ (history.served video hvideo).info
      ownPlayer := fun video hvideo ↦ ownPlayer_of_served history (history.served video hvideo)
      scriptsDistinct := hdistinct }

/-- **The info-queue protocol.** Along every run of a fresh queue whose answers can all be used,
the protocol holds in every state. -/
theorem protocol_always (extractors : Extractors Info Sig) (events : List (Event Id Callback))
    (husable : Each (step extractors) (UsableAnswer extractors) (Session.init []) events) :
    Always (step extractors) (Protocol extractors) (Session.init []) events := by
  have halways :
      Always (step extractors) (Invariant extractors []) (Session.init []) events := by
    refine always_of_invariant ?_ (invariant_init []) husable
    exact fun session event next h hanswer hstep ↦ invariant_step h hanswer hstep
  exact halways.mono fun _ h ↦ protocol_of_invariant h

/-- Pages whose first byte names their player, and scripts that are their own actions; empty ones do
not extract. -/
def firstByte : Extractors Bytes Bytes where
  infoCtxInit := []
  extractWatchHtml := fun _ page ↦ (if page = [] then 1 else 0, page)
  getPlayabilityStatus := fun info ↦ (0, info)
  getPlayabilityStatusMessage := fun _ ↦ []
  playerUrl := fun info ↦ info.take 1
  sigActionsExtract := fun script ↦ (if script = [] then -1 else 0, script)

/-- Two videos share a player, and the first `on_complete` asks for a third video. -/
theorem protocol_always_sharedPlayer :
    Always (step firstByte) (Protocol firstByte) (Session.init [] : Session ℕ Bytes Bytes Unit)
      [.getInfo 1 (), .connected, .body [7], .getInfo 2 (), .body [8, 9], .messageComplete [],
        .body [5], .body [6], .messageComplete [(3, ())], .body [7], .messageComplete [],
        .body [4], .messageComplete [], .body [2], .messageComplete []] :=
  protocol_always firstByte _ (by decide)

end LibYtdl.Dl.InfoProtocol
