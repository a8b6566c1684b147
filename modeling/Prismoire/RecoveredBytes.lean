import Prismoire.RecoveryEffects

namespace Prismoire

open Lib List

/-- Two instances with one platform, and a key that is known to the one it moves from. Its responses can be read back,
and stored bytes fit into memory. -/
structure Handover (cbor : Ciborium) (corpus : Corpus) (home : PriorHome) (state : AppState)
    (subject : RecoverySubject) : Prop where
  faithful : cbor.Faithful
  framing : home.state.platform.decodeSignedObject = decodeSignedObject cbor
  samePlatform : state.platform = home.state.platform
  injective : CollisionFree home.state.platform corpus
  homeReached : Reachable home.state corpus (fun _ _ _ => True) home.db
  known : home.db.hasUser subject.key = true
  responses : ∀ response : PriorHomeResponse, response.subjectKey = subject.key →
    (∃ read, home.state.platform.parse (subject.signResponse response).1 = some (.priorHomeResponse read) ∧
      read.subjectKey = subject.key) ∧
      (subject.signResponse response).1.length < 2 ^ 64 ∧ (subject.signResponse response).2.length < 2 ^ 64
  fits : ∀ object ∈ home.db.signedObjects, ∀ payload, object.payload = some payload →
    payload.length < 2 ^ 64 ∧ object.signature.length < 2 ^ 64 ∧
      (encodeSignedObject cbor payload object.signature).length < 2 ^ 64

/-- Whatever the peers send belongs to the run. -/
def RoutesOccur (cbor : Ciborium) (state : AppState) (corpus : Corpus) (routes : Key → PeerRoutes) : Prop :=
  ∀ peer request cursor raw objects nextCursor complete,
    (routes peer).byAuthor request cursor = .page raw ∨ (routes peer).edgesByKey request cursor = .page raw →
      decodeBackfillBody cbor raw = some (objects, nextCursor, complete) → ∀ wire ∈ objects, Occurs state corpus wire

/-- The prior home holds, under the hash, an object that the receive path of content does not take for its size. -/
def TooLarge (cbor : Ciborium) (home : PriorHome) (hash : Hash) : Prop :=
  ∃ object ∈ home.db.signedObjects, object.canonicalHash = hash ∧
    ∃ payload, object.payload = some payload ∧ maxPostrevSize < (encodeSignedObject cbor payload object.signature).length

variable {cbor : Ciborium} {corpus : Corpus} {home : PriorHome} {rows : Key → List ChainRow} {state : AppState}
    {subject : RecoverySubject} {walk : BulkWalk}

section Serving

variable {row : ChainRow} {challenge : Bytes × Bytes}

variable (handover : Handover cbor corpus home state subject)
include handover

section

variable (stored : ∃ object ∈ home.db.signedObjects, home.pullRow object = some row)
include stored

theorem Handover.sent : state.platform.decodeSignedObject (row.wire cbor) = some (row.payload, row.signature) ∧
      state.platform.sha256 row.payload = row.canonicalHash ∧
      (row.wire cbor).length < 2 ^ 64 ∧ (∃ object ∈ home.db.signedObjects, object.canonicalHash = row.canonicalHash ∧
        object.payload = some row.payload ∧ object.signature = row.signature) ∧
      ∃ object, Filed state.platform corpus row.payload row.signature object := by
  obtain ⟨object, inObjects, pulled⟩ := stored
  obtain ⟨live, signature, hash⟩ := pullRow_some pulled
  obtain ⟨small, short, framed⟩ := handover.fits object inObjects _ live
  obtain ⟨payload, signed, filed, hashed, -, bytes⟩ := handover.homeReached.sound.objects object inObjects
  have same : row.payload = payload := by
    rcases bytes with erased | held
    · rw [erased] at live
      cases live
    · rw [held] at live
      exact (Option.some.inj live).symm
  rw [handover.samePlatform, ChainRow.wire, signature, hash]
  refine ⟨?_, ?_, framed, ⟨object, inObjects, rfl, live, rfl⟩, signed, ?_⟩
  · rw [handover.framing]
    exact decodeSignedObject_encode handover.faithful small short
  · rw [same, hashed]
  · rw [same]
    exact filed

theorem Handover.occurs : Occurs state corpus (row.wire cbor) := by
  obtain ⟨decodes, -, -, -, object, filed⟩ := handover.sent stored
  intro payload signature decodes'
  rw [decodes] at decodes'
  cases decodes'
  exact filed.occurs

end

theorem Handover.serves
    (stored : ∀ row ∈ rows subject.key, ∃ object ∈ home.db.signedObjects, home.pullRow object = some row) :
    ServesRows cbor
      (fun index cursor => (postPage cbor state subject walk (handleBulkFetch home rows) challenge index cursor, index + 1))
      (rows subject.key) := by
  intro index cursor raw next fetched
  obtain ⟨posted, -⟩ := Prod.ext_iff.mp fetched
  simp only [postPage] at posted
  split at posted
  · cases posted
  · split at posted
    · cases posted
    · rename_i page answered
      cases posted
      obtain ⟨⟨read, parses, names⟩, small, short⟩ := handover.responses
        { subjectKey := subject.key, challengeHash := state.platform.sha256 challenge.2,
          createdAt := (walk.page index).sentAt } rfl
      have decodes := decodeSignedObject_encode handover.faithful small short
      rw [← handover.framing] at decodes
      have paged := handleBulkFetch_ok rfl (names ▸ handover.known) decodes parses answered
      rw [names] at paged
      obtain ⟨objects, ends⟩ := bulkPage_ok paged
      have within : ∀ row ∈ page.objects, row ∈ rows subject.key := by
        intro row mem
        rw [objects] at mem
        exact (mem_rowsAfter.mp (mem_of_mem_take mem)).1
      refine ⟨page, paged, decodeBackfillBody_encode handover.faithful ?_ ?_ ?_⟩
      · have most : page.objects.length ≤ maxBackfillPage := by
          rw [objects]
          exact length_take_le ..
        have : maxBackfillPage = 100 := rfl
        omega
      · intro row mem
        exact (handover.sent (stored row (within row mem))).2.2.1
      · intro sent isSent
        rcases ends with ⟨-, none_, -⟩ | ⟨-, last, sent', -, encoded, isNext⟩
        · rw [none_] at isSent
          cases isSent
        · rw [isNext] at isSent
          cases isSent
          rw [Cursor.encode_length encoded]
          decide

end Serving

variable {db : Db} {routes : Key → PeerRoutes}

section Recovery

/-- A post-rev of the key has come, unless its post is removed or its wire form is too large. -/
def Arrived (cbor : Ciborium) (corpus : Corpus) (home : PriorHome) (platform : Platform) (key : Key)
    (place : Cursor) (db : Db) : Prop :=
  ∀ payload signature p, Filed platform corpus payload signature (.postRevision p) → p.author = key →
    platform.sha256 payload = place.canonicalHash →
      db.hasObject place.canonicalHash = true ∨ adminRmBlocks db p.postId = true ∨
        TooLarge cbor home place.canonicalHash

/-- What each object that belongs to the run keeps. -/
def Keeps (state : AppState) (corpus : Corpus) (key : Key) (start : Db) (ingest : Db → Bytes → Db) : Prop :=
  ∀ db wire, Recovering state corpus key start db → Occurs state corpus wire →
    Recovering state corpus key start (ingest db wire) ∧ KeepsStored db (ingest db wire)

variable {key : Key} {start mid : Db} {ingest : Db → Bytes → Db} {cursor : Option Bytes}

theorem Arrived.mono {platform : Platform} {place : Cursor} (arrived : Arrived cbor corpus home platform key place mid)
    (kept : KeepsStored mid db) : Arrived cbor corpus home platform key place db := by
  intro payload signature p filed own hashed
  rcases arrived payload signature p filed own hashed with stored | removed | large
  · exact .inl (kept.objects _ stored)
  · exact .inr (.inl (kept.removals _ removed))
  · exact .inr (.inr large)

theorem keeps_edge (peer : Key) : Keeps state corpus key start (ingestEdgeObject state peer) :=
  fun _ _ recovering occurs => recovering.edge occurs

theorem keeps_content (injective : CollisionFree state.platform corpus) (peer : Key) :
    Keeps state corpus key start (ingestContentObject state peer) :=
  fun _ _ recovering occurs => recovering.content injective occurs

theorem Recovering.pages {σ : Type} {fetch : σ → Option Bytes → Except PageError Bytes × σ} {pages : Nat} {requests : σ}
    {stats : SurfaceStats} (recovering : Recovering state corpus key start db)
    (keeps : Keeps state corpus key start ingest)
    (occurs : ∀ (requests : σ) cursor raw next objects nextCursor complete, fetch requests cursor = (.ok raw, next) →
      decodeBackfillBody cbor raw = some (objects, nextCursor, complete) → ∀ wire ∈ objects, Occurs state corpus wire) :
    Recovering state corpus key start (paginatePages cbor fetch ingest pages requests cursor stats db).2 ∧
      KeepsStored db (paginatePages cbor fetch ingest pages requests cursor stats db).2 := by
  let holds : Db → Prop := fun after => Recovering state corpus key start after ∧ KeepsStored db after
  have begun : holds db := ⟨recovering, .refl⟩
  suffices walked : holds (paginatePages cbor fetch ingest pages requests cursor stats db).2 from walked
  refine paginatePages_invariant ?_ begun
  rintro requests cursor raw next objects nextCursor complete fetched decoded wire mem mid ⟨reached, kept⟩
  obtain ⟨reached', kept'⟩ := keeps mid wire reached (occurs _ _ _ _ _ _ _ fetched decoded wire mem)
  exact ⟨reached', kept.trans kept'⟩

section

variable (handover : Handover cbor corpus home state subject)
include handover

theorem Recovering.surface
    (stored : ∀ row ∈ rows subject.key, ∃ object ∈ home.db.signedObjects, home.pullRow object = some row)
    (recovering : Recovering state corpus key start db) (keeps : Keeps state corpus key start ingest) :
    let after := (paginateBulkSurface cbor state subject home walk (handleBulkFetch home rows) ingest db).2
    Recovering state corpus key start after ∧ KeepsStored db after := by
  unfold paginateBulkSurface
  split
  · exact ⟨recovering, .refl⟩
  · rename_i challenge minted
    refine recovering.pages keeps ?_
    have serves : ServesRows cbor (fun index cursor =>
        (postPage cbor state subject walk (handleBulkFetch home rows) challenge index cursor, index + 1))
        (rows subject.key) := handover.serves stored
    intro index cursor raw next objects nextCursor complete fetched decoded wire mem
    obtain ⟨page, paged, decoded'⟩ := serves _ _ _ _ fetched
    rw [decoded] at decoded'
    cases decoded'
    obtain ⟨row, inPage, rfl⟩ := mem_map.mp mem
    rw [(bulkPage_ok paged).1] at inPage
    exact handover.occurs (stored row (mem_rowsAfter.mp (mem_of_mem_take inPage)).1)

theorem Handover.visits (peer : Key) : Visits cbor (ingestContentObject state peer) (home.contentRows subject.key)
      (Recovering state corpus subject.key start) (Arrived cbor corpus home state.platform subject.key) := by
  have injective : CollisionFree state.platform corpus := handover.samePlatform ▸ handover.injective
  constructor
  · intro db row mem recovering
    exact (recovering.content injective (handover.occurs (stored_of_contentRows mem))).1
  · intro db row mem recovering payload signature p filed own hashed
    obtain ⟨decodes, sha, -, ⟨object, inObjects, sameHash, live, sameSignature⟩, found, sent⟩ :=
      handover.sent (stored_of_contentRows mem)
    have hash : row.cursor.canonicalHash = row.canonicalHash := rfl
    rw [hash] at hashed ⊢
    obtain rfl := injective _ _ filed.occurs sent.occurs (hashed.trans sha.symm)
    have isRevision := sent.parses.symm.trans filed.parses
    cases isRevision
    have lives : db.livesHere p.author = true := own ▸ recovering.gains.lives
    have kept : KeepsStored db (ingestContentObject state peer db (row.wire cbor)) :=
      (recovering.content injective (handover.occurs (stored_of_contentRows mem))).2
    have outcome : (ingestContentObject state peer db (row.wire cbor)).hasObject
        (state.platform.sha256 row.payload) = true ∨ adminRmBlocks db p.postId = true ∨
          maxPostrevSize < (row.wire cbor).length := ingestContentObject_stores lives decodes sent
    rcases outcome with stored | removed | large
    · exact .inl (sha ▸ stored)
    · exact .inr (.inl (kept.removals _ removed))
    · refine .inr (.inr ⟨object, inObjects, sameHash, _, live, ?_⟩)
      rw [sameSignature]
      exact large
  · intro db row mem recovering place seen
    exact seen.mono (recovering.content injective (handover.occurs (stored_of_contentRows mem))).2

theorem Handover.arrive {peer : Key} {final : SurfaceStats}
    {after : Db} (recovering : Recovering state corpus subject.key start db)
    (run : paginateBulkSurface cbor state subject home walk (handleContentByKey home) (ingestContentObject state peer) db =
      (.ok final, after)) (complete : final.complete = true) :
    ∀ row ∈ home.contentRows subject.key, Arrived cbor corpus home state.platform subject.key row.cursor after := by
  unfold paginateBulkSurface at run
  split at run
  · cases run
  · refine paginatePages_visits (handover.serves fun _ => stored_of_contentRows) (handover.visits peer) run complete rfl
      recovering ?_
    intro row mem
    refine .inr (mem_rowsAfter.mpr ⟨mem, ?_⟩)
    intro place isPlace
    cases isPlace

theorem Recovering.primary (recovering : Recovering state corpus subject.key start db) (content edges : BulkWalk) :
    let stage := primaryStage cbor state subject (some ⟨home, content, edges⟩) db
    Recovering state corpus subject.key start stage.2 ∧
      (stage.1.primaryComplete = true → ∀ row ∈ home.contentRows subject.key,
        Arrived cbor corpus home state.platform subject.key row.cursor stage.2) := by
  have injective : CollisionFree state.platform corpus := handover.samePlatform ▸ handover.injective
  let peer := home.state.instanceKey
  let first := paginateBulkSurface cbor state subject home content (handleContentByKey home)
    (ingestContentObject state peer) db
  let second := paginateBulkSurface cbor state subject home edges (handleInboundEdgesByKey home)
    (ingestEdgeObject state peer) first.2
  obtain ⟨fed, -⟩ : Recovering state corpus subject.key start first.2 ∧ KeepsStored db first.2 :=
    Recovering.surface handover (fun _ => stored_of_contentRows) recovering (keeps_content injective peer)
  obtain ⟨done, kept⟩ : Recovering state corpus subject.key start second.2 ∧ KeepsStored first.2 second.2 :=
    Recovering.surface handover (fun _ => stored_of_inboundRows) fed (keeps_edge peer)
  refine ⟨done, ?_⟩
  intro complete row mem
  have both : ((surfaceStats first.1).complete && (surfaceStats second.1).complete) = true := complete
  rw [Bool.and_eq_true] at both
  cases outcome : first.1 with
  | error error =>
    rw [outcome] at both
    cases both.1
  | ok final =>
    rw [outcome] at both
    exact (handover.arrive recovering (Prod.ext outcome rfl) both.1 row mem).mono kept

end

theorem requestPage_ok {route : PeerRoute} {retries request : Nat} {raw : Bytes}
    {left : Nat × Nat} (run : requestPage route cursor retries request = (.ok raw, left)) :
    ∃ request, route request cursor = .page raw := by
  induction retries generalizing request with
  | zero =>
    unfold requestPage at run
    split at run
    · cases run
    · cases run
    · rename_i answered
      cases run
      exact ⟨request, answered⟩
  | succ retries ih =>
    unfold requestPage at run
    split at run
    · cases run
    · exact ih run
    · rename_i answered
      cases run
      exact ⟨request, answered⟩

theorem Recovering.peers (occurs : RoutesOccur cbor state corpus routes)
    (injective : CollisionFree state.platform corpus) (recovering : Recovering state corpus key start db)
    (candidates : List Key) :
    let after := (recoverViaPeerNetwork cbor state candidates routes db).2
    Recovering state corpus key start after ∧ KeepsStored db after := by
  have swept : ∀ (peers : List Key) (sweep : PeerSweep), Recovering state corpus key start sweep.db →
      KeepsStored db sweep.db → Recovering state corpus key start (peers.foldl (sweepPeer cbor state routes) sweep).db ∧
        KeepsStored db (peers.foldl (sweepPeer cbor state routes) sweep).db := by
    intro peers
    induction peers with
    | nil => exact fun _ reached kept => ⟨reached, kept⟩
    | cons peer peers ih =>
      intro sweep reached kept
      let first := paginatePeerBackfill cbor (routes peer).byAuthor (ingestContentObject state peer) sweep.db
      let second := paginatePeerBackfill cbor (routes peer).edgesByKey (ingestEdgeObject state peer) first.2
      obtain ⟨fed, keptFirst⟩ : Recovering state corpus key start first.2 ∧ KeepsStored sweep.db first.2 := by
        refine reached.pages (keeps_content injective peer) ?_
        intro left cursor raw next objects nextCursor complete fetched decoded
        obtain ⟨request, answered⟩ := requestPage_ok fetched
        exact occurs peer request cursor raw objects nextCursor complete (.inl answered) decoded
      obtain ⟨done, keptSecond⟩ : Recovering state corpus key start second.2 ∧ KeepsStored first.2 second.2 := by
        refine fed.pages (keeps_edge peer) ?_
        intro left cursor raw next objects nextCursor complete fetched decoded
        obtain ⟨request, answered⟩ := requestPage_ok fetched
        exact occurs peer request cursor raw objects nextCursor complete (.inr answered) decoded
      exact ih (sweepPeer cbor state routes sweep peer) done ((kept.trans keptFirst).trans keptSecond)
  unfold recoverViaPeerNetwork
  split
  · exact ⟨recovering, .refl⟩
  · exact swept (candidates.take maxFallbackPeers) _ recovering .refl

theorem Recovering.drive (handover : Handover cbor corpus home state subject)
    (occurs : RoutesOccur cbor state corpus routes) (recovering : Recovering state corpus subject.key start db)
    (content edges : BulkWalk) (candidates : List Key) :
    let outcome := driveRecovery cbor state subject (some ⟨home, content, edges⟩) candidates routes db
    Recovering state corpus subject.key start outcome.2 ∧
      (outcome.1.primaryComplete = true → ∀ row ∈ home.contentRows subject.key,
        Arrived cbor corpus home state.platform subject.key row.cursor outcome.2) := by
  have injective : CollisionFree state.platform corpus := handover.samePlatform ▸ handover.injective
  obtain ⟨reached, arrived⟩ := Recovering.primary handover recovering content edges
  unfold driveRecovery
  dsimp only
  split
  · exact ⟨reached, arrived⟩
  · rename_i incomplete
    obtain ⟨done, -⟩ := Recovering.peers occurs injective reached candidates
    exact ⟨done, fun complete => absurd complete incomplete⟩

end Recovery

section Registered

variable {before : Db} {reg : CrossRegistration}

theorem publishRegistrationMove_effects (signs : ∀ m, registrationMove state before reg = some m →
      Filed state.platform corpus (reg.sign m).payload (reg.sign m).signature (.move m)) :
    Effects state corpus false before (publishRegistrationMove state before reg) := by
  cases moves : registrationMove state before reg with
  | none =>
    rw [publishRegistrationMove_none moves]
  | some m =>
    rw [publishRegistrationMove_some moves]
    have stored : Effect state corpus false before (before.storeSignedObject .move (reg.sign m).payload
        (reg.sign m).signature (state.platform.sha256 (reg.sign m).payload)) := .store (signs m moves) rfl
    exact (Relation.ReflTransGen.single stored).tail (.aside _ _ _ _ _ _)

theorem completeRegistration_recovers (reached : Reachable state corpus (fun _ _ _ => True) before)
    (signs : ∀ m, registrationMove state before reg = some m →
      Filed state.platform corpus (reg.sign m).payload (reg.sign m).signature (.move m))
    (run : completeRegistration state before reg = .ok db) : Recovering state corpus reg.publicKey db db := by
  obtain ⟨-, -, final⟩ := completeRegistration_ok run
  have rows : Effect state corpus false before { before with users := registeredUsers before reg } := by
    refine .users fun key known => ?_
    obtain ⟨row, mem, same⟩ := any_eq_true.mp known
    obtain ⟨kept, inRows, sameKey⟩ := mem_registeredUsers_of_mem mem
    exact any_eq_true.mpr ⟨kept, inRows, by simpa [sameKey] using same⟩
  have opened : Effects state corpus false before { before with
      users := registeredUsers before reg, signingKeys := before.signingKeys ++ [{ user := reg.publicKey }] } :=
    (Relation.ReflTransGen.single rows).tail (.aside _ _ _ _ _ _)
  have effects : Effects state corpus false before db := by
    rw [final]
    exact opened.trans (publishRegistrationMove_effects signs)
  have lives : db.livesHere reg.publicKey = true := by
    obtain ⟨⟨row, mem, own⟩, isLocal⟩ := completeRegistration_local run
    cases found : db.user? reg.publicKey with
    | none => exact absurd own (by simpa using find?_eq_none.mp found row mem)
    | some user =>
      have isKey : user.publicKey = reg.publicKey := by simpa using find?_some found
      rw [Db.livesHere, found, Option.any_some, isLocal user (mem_of_find?_eq_some found) isKey]
      rfl
  exact ⟨effects.sound reached.sound, .refl lives⟩

theorem applyOneObject_stored {wire payload signature : Bytes} {peer : Key}
    (decodes : state.platform.decodeSignedObject wire = some (payload, signature))
    (stored : db.hasObject (state.platform.sha256 payload) = true) :
    ∃ result, applyOneObject state db wire peer = .ok (result, db) ∧
      (result.status = .duplicate ∨ result.status = .rejected .erased ∨ result.status = .rejected .objectTooLarge) := by
  unfold applyOneObject
  split
  · exact ⟨_, rfl, .inr (.inr rfl)⟩
  · obtain ⟨row, mem, same⟩ := any_eq_true.mp stored
    rw [decodes]
    dsimp only
    cases found : db.signedObjects.find? (·.canonicalHash = state.platform.sha256 payload) with
    | none => exact absurd same (find?_eq_none.mp found row mem)
    | some object =>
      simp only [knownStatus, found, Option.map_some]
      split
      · exact ⟨_, rfl, .inr (.inl rfl)⟩
      · exact ⟨_, rfl, .inl rfl⟩

end Registered

/-- After a registration, a recovery that walks the whole prior home brings the bytes of every revision that the user
signed there of a post of theirs. It projects none of them: the posts and revisions of the user are those from before. -/
theorem recovery_brings_bytes {cbor : Ciborium} {corpus : Corpus} {home : PriorHome} {state : AppState}
    {subject : RecoverySubject} {before db : Db} {reg : CrossRegistration}
    (handover : Handover cbor corpus home state subject) (occurs : RoutesOccur cbor state corpus routes)
    (reached : Reachable state corpus (fun _ _ _ => True) before) (same : reg.publicKey = subject.key)
    (signs : ∀ m, registrationMove state before reg = some m →
      Filed state.platform corpus (reg.sign m).payload (reg.sign m).signature (.move m))
    (registers : completeRegistration state before reg = .ok db) (content edges : BulkWalk) (candidates : List Key) :
    let outcome := driveRecovery cbor state subject (some ⟨home, content, edges⟩) candidates routes db
    GainsNothing state.platform corpus subject.key db outcome.2 ∧
      (outcome.1.primaryComplete = true → ∀ post ∈ home.db.posts, post.author = subject.key →
        ∀ revision ∈ home.db.postRevisions, revision.postId = post.id → ∀ payload signature p,
          Filed state.platform corpus payload signature (.postRevision p) → p.author = subject.key →
          state.platform.sha256 payload = revision.canonicalHash → HeldLive state.platform home.db payload →
            adminRmBlocks outcome.2 p.postId = true ∨ TooLarge cbor home revision.canonicalHash ∨
            (outcome.2.hasObject revision.canonicalHash = true ∧
              ∀ wire peer, state.platform.decodeSignedObject wire = some (payload, signature) →
                ∃ result, applyOneObject state outcome.2 wire peer = .ok (result, outcome.2) ∧
                  (result.status = .duplicate ∨ result.status = .rejected .erased ∨
                    result.status = .rejected .objectTooLarge))) := by
  have begun : Recovering state corpus subject.key db db :=
    same ▸ completeRegistration_recovers reached signs registers
  obtain ⟨done, arrived⟩ := begun.drive handover occurs content edges candidates
  refine ⟨done.gains, ?_⟩
  intro complete post inPosts author revision inRevisions isPost payload signature p filed own hashed live
  obtain ⟨object, inObjects, sameHash, bytes⟩ := live
  have pulled : ∃ row, home.pullRow object = some row ∧ row.canonicalHash = object.canonicalHash := by
    rw [PriorHome.pullRow, bytes]
    exact ⟨_, rfl, rfl⟩
  obtain ⟨row, pulled, rowHash⟩ := pulled
  have hash : row.cursor.canonicalHash = revision.canonicalHash := (rowHash.trans sameHash).trans hashed
  have mem := contentRows_of_revision inRevisions inPosts isPost.symm author inObjects (sameHash.trans hashed) pulled
  rcases arrived complete row mem payload signature p filed own (hashed.trans hash.symm) with stored | removed | large
  · right
    right
    rw [hash] at stored
    exact ⟨stored, fun wire peer decodes => applyOneObject_stored decodes (hashed ▸ stored)⟩
  · exact .inl removed
  · exact .inr (.inl (hash ▸ large))

def moverTable : List SignedPayload :=
  [.priorHomeChallenge ⟨8, 1, 0, 0, 60000⟩, .priorHomeResponse ⟨1, 1, 0⟩,
    .profileRevision ⟨1, "ada", "", none, 500, none⟩,
    .move ⟨1, none, none, 8, "home", 500, 500, ⟨1, 500, 8, []⟩, none⟩,
    .postRevision ⟨5, 1, 7, none, 0, "hi", 5000, [], by decide⟩, .threadCreate ⟨7, 1, "lobby", "hello", none, 5, 5000⟩]

def moverState (instanceKey : Key) : AppState where
  platform := { Platform.ofTable moverTable with
    decodeSignedObject := decodeSignedObject shortestCbor
    formatTimestamp := fun secs => some (decimal 20 secs) }
  instanceKey := instanceKey
  edgeRowId _ := 0
  edgeClock _ := ""

def moverBytes (payload : Bytes) : Prop :=
  payload ∈ [[0], [1], [2], [3], [4], [5]]

def moverSign (i : UInt8) : SigningOutput :=
  ⟨[i], replicate 64 0⟩

def moverBirth : LocalUserBirth :=
  ⟨1, "ada", "ada", .invite, 500, "home", ⟨1, 500, 8, []⟩, moverSign 2, moverSign 3⟩

def moverThread : ThreadRequest :=
  ⟨"lobby", "hello", "hi", none, [], false, 5, 7, 5⟩

def moverSigns (object : SignedPayload) : SigningOutput :=
  moverSign (if object = .threadCreate (moverThread.thread 1) then 5 else 4)

/-- The prior home after the birth of the user and a thread of theirs. -/
def moverBorn : Db :=
  (completeLocalUserBirth (moverState 8) {} moverBirth).toOption.getD {}

def moverHome : PriorHome where
  state := moverState 8
  db := (createThread (moverState 8) moverSigns moverBorn 1 moverThread).2
  receivedAt _ := decimal 20 5
  retractionSignature _ := none
  signChallenge _ := ([0], replicate 64 0)

def mover : RecoverySubject where
  key := 1
  signResponse _ := ([1], replicate 64 0)

def moverRegistration : CrossRegistration :=
  ⟨1, "ada", "ada", "here", 9, some (8, "home"), fun _ => ⟨[3], []⟩⟩

def moverWalk : BulkWalk where
  mint := ⟨0, 0, true, true⟩
  nonce := 0
  page _ := ⟨0, 0, true, true⟩

/-- The new home after the registration. -/
def moverArrived : Db :=
  (completeRegistration (moverState 9) {} moverRegistration).toOption.getD {}

def moverRoutes (_ : Key) : PeerRoutes :=
  ⟨fun _ _ => .throttled, fun _ _ => .throttled⟩

def moverRecovery : RecoveryStats × Db :=
  driveRecovery shortestCbor (moverState 9) mover (some ⟨moverHome, moverWalk, moverWalk⟩) [] moverRoutes moverArrived

instance : DecidablePred moverBytes :=
  fun payload => inferInstanceAs (Decidable (payload ∈ _))

theorem mover_collisionFree : CollisionFree (moverState 8).platform moverBytes := by
  have distinct : ∀ a ∈ ([[0], [1], [2], [3], [4], [5]] : List Bytes), ∀ b ∈ ([[0], [1], [2], [3], [4], [5]] : List Bytes),
      (moverState 8).platform.sha256 a = (moverState 8).platform.sha256 b → a = b := by decide
  exact fun a b inA inB => distinct a inA b inB

theorem moverHome_reached : Reachable (moverState 8) moverBytes (fun _ _ _ => True) moverHome.db := by
  have born : Reachable (moverState 8) moverBytes (fun _ _ _ => True) moverBorn := by
    refine Reachable.start.step (.birth moverBirth ⟨1, none, none, 8, "home", 500, 500, ⟨1, 500, 8, []⟩, none⟩ ?_ ?_ ?_)
    · exact ⟨by decide, rfl, 1, by decide⟩
    · exact ⟨by decide, rfl, 1, by decide⟩
    · rfl
  refine born.step (.thread moverSigns 1 moverThread ?_ ?_)
  · rintro ⟨refs, fit⟩ rfl
    have occurs : moverBytes [4] := by decide
    have ok : signatureOk (moverState 8).platform [4] (replicate 64 0) 1 = true := by decide
    exact ⟨occurs, rfl, 1, ok⟩
  · have occurs : moverBytes [5] := by decide
    have ok : signatureOk (moverState 8).platform [5] (replicate 64 0) 1 = true := by decide
    exact ⟨occurs, rfl, 1, ok⟩

theorem mover_handover : Handover shortestCbor moverBytes moverHome (moverState 9) mover where
  faithful := shortestCbor_faithful
  framing := rfl
  samePlatform := rfl
  injective := mover_collisionFree
  homeReached := moverHome_reached
  known := by decide +kernel
  responses := by
    intro response _
    have short : [1].length < 2 ^ 64 ∧ (replicate 64 (0 : UInt8)).length < 2 ^ 64 := by decide
    exact ⟨⟨⟨1, 1, 0⟩, rfl, rfl⟩, short⟩
  fits := by
    intro object mem payload bytes
    have small : ∀ object ∈ moverHome.db.signedObjects, (object.payload.getD []).length < 2 ^ 64 ∧
        object.signature.length < 2 ^ 64 ∧
        (encodeSignedObject shortestCbor (object.payload.getD []) object.signature).length < 2 ^ 64 := by
      decide +kernel
    have fits := small object mem
    rw [bytes] at fits
    exact fits

/-- The recovery brings the opening of the user's thread, and no post of the user is shown. -/
theorem mover_brings_bytes : moverRecovery.1.primaryComplete = true ∧ moverRecovery.2.hasObject 5 = true ∧
    ∀ post ∈ moverRecovery.2.posts, post.author ≠ 1 := by
  have occurs : RoutesOccur shortestCbor (moverState 9) moverBytes moverRoutes := by
    rintro peer request cursor raw objects nextCursor complete (answered | answered) <;> cases answered
  have recovery : driveRecovery shortestCbor (moverState 9) mover (some ⟨moverHome, moverWalk, moverWalk⟩) [] moverRoutes
      moverArrived = moverRecovery := rfl
  have registers : completeRegistration (moverState 9) {} moverRegistration = .ok moverArrived := rfl
  have settled := recovery_brings_bytes mover_handover occurs .start rfl (fun m signs => by cases signs) registers
    moverWalk moverWalk []
  dsimp only at settled
  rw [recovery] at settled
  obtain ⟨gains, brings⟩ := settled
  have complete : moverRecovery.1.primaryComplete = true := by decide +kernel
  refine ⟨complete, ?_, ?_⟩
  · have filed : Filed (moverState 9).platform moverBytes [4] (replicate 64 0)
        (.postRevision ⟨5, 1, 7, none, 0, "hi", 5000, [], by decide⟩) := ⟨by decide, rfl, 1, by decide⟩
    have held : HeldLive (moverState 9).platform moverHome.db [4] :=
      ⟨⟨5, .postRev, some [4], replicate 64 0, false, none⟩, by decide +kernel, rfl, rfl⟩
    have small : ¬ TooLarge shortestCbor moverHome 5 := by
      rintro ⟨object, mem, -, payload, bytes, large⟩
      have fits : ∀ object ∈ moverHome.db.signedObjects,
          ¬ maxPostrevSize < (encodeSignedObject shortestCbor (object.payload.getD []) object.signature).length := by
        decide +kernel
      have fit := fits object mem
      rw [bytes] at fit
      exact fit large
    have inPosts : (⟨5, 1, 7, none, decimal 20 5, false, 1, none⟩ : PostRow) ∈ moverHome.db.posts := by decide +kernel
    have inRevisions : (⟨5, 0, "hi", replicate 64 0, 5, decimal 20 5⟩ : PostRevisionRow) ∈ moverHome.db.postRevisions := by
      decide +kernel
    have posted := brings complete _ inPosts rfl _ inRevisions rfl [4] _ _ filed rfl rfl held
    rcases posted with removed | large | ⟨stored, -⟩
    · exact absurd removed (by decide +kernel)
    · exact absurd large small
    · exact stored
  · intro post mem own
    obtain ⟨old, inOld, -⟩ := gains.posts post mem own
    have blank : moverArrived.posts = [] := rfl
    rw [blank] at inOld
    cases inOld

/-- The registration and the whole walk go through, and yet the user's thread and post have no row at the new home,
where their bytes are stored and answered as duplicate. -/
theorem mover_unprojected : Reachable (moverState 8) moverBytes (fun _ _ _ => True) moverHome.db ∧
    completeRegistration (moverState 9) {} moverRegistration = .ok moverArrived ∧ moverArrived.livesHere 1 = true ∧
    moverRecovery.1.primaryComplete = true ∧ moverRecovery.1.isIncomplete = false ∧
    (∃ post ∈ moverHome.db.posts, post.id = 5 ∧ post.author = 1 ∧ post.retracted = false ∧ post.thread = 7) ∧
    (∃ thread ∈ moverHome.db.threads, thread.id = 7 ∧ thread.author = 1) ∧
    moverRecovery.2.hasPost 5 = false ∧ moverRecovery.2.hasObject 5 = true ∧
    (applyOneObject (moverState 9) moverRecovery.2 (encodeSignedObject shortestCbor [4] (replicate 64 0)) 8).toOption.map
      (·.1.status) = some .duplicate :=
  ⟨moverHome_reached, rfl, by decide +kernel⟩

end Prismoire
