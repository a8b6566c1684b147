import Prismoire.Instance

namespace Prismoire

open Lib List Db

/-- Distinct payloads of the run have distinct hashes. -/
def CollisionFree (platform : Platform) (corpus : Corpus) : Prop :=
  ∀ a b, corpus a → corpus b → platform.sha256 a = platform.sha256 b → a = b

def namedPost : SignedPayload → Option (Uuid × Key)
  | .postRevision p => some (p.postId, p.author)
  | .retraction r => some (r.postId, r.author)
  | .adminRemoval a => some (a.postId, a.targetAuthor)
  | _ => none

def erasureSubject : SignedPayload → Option Key
  | .retraction r => some r.author
  | .deactivation d => some d.user
  | .adminRemoval a => some a.targetAuthor
  | _ => none

/-- The validly signed objects of the run that name one post name one author for it. -/
def PostsOwned (platform : Platform) (corpus : Corpus) : Prop :=
  ∀ payload signature object payload' signature' object' post key key',
    Filed platform corpus payload signature object → Filed platform corpus payload' signature' object' →
    namedPost object = some (post, key) → namedPost object' = some (post, key') → key = key'

def RemovedByHome (platform : Platform) (corpus : Corpus) (homeDomain : Key → Text) : Prop :=
  ∀ payload signature a, Filed platform corpus payload signature (.adminRemoval a) →
    a.signingInstance = homeDomain a.targetAuthor

/-- Bytes whose stored payload becomes NULL between two states. -/
def Erased (platform : Platform) (db after : Db) (payload : Bytes) : Prop :=
  HeldLive platform db payload ∧ ¬ HeldLive platform after payload

variable {after db : Db} {corpus : Corpus} {payload : Bytes} {state : AppState} {homeDomain : Key → Text}

section Erasure

theorem HeldLive.storeSignedObject {cls : InnerClass} {stored signature : Bytes} {hash : Hash}
    (held : HeldLive state.platform db payload) :
    HeldLive state.platform (db.storeSignedObject cls stored signature hash) payload := by
  obtain ⟨row, mem, hashed, live⟩ := held
  refine ⟨row, ?_, hashed, live⟩
  cases present : db.hasObject hash with
  | true => rwa [storeSignedObject_of_present present]
  | false =>
    rw [storeSignedObject_of_absent present]
    exact mem_append_left _ mem

theorem erasePayloads_targeted {targeted : Hash → Bool} {authority : Option Hash}
    (run : db.erasePayloads targeted authority = .ok after) (held : HeldLive state.platform db payload) :
    HeldLive state.platform after payload ∨ targeted (state.platform.sha256 payload) = true := by
  obtain ⟨row, mem, hashed, live⟩ := held
  cases hit : targeted (state.platform.sha256 payload) with
  | true => exact .inr rfl
  | false =>
    refine .inl ⟨row, ?_, hashed, live⟩
    rw [erasePayloads_frame run]
    exact mem_updateWhere.mpr ⟨row, mem, .inr ⟨by simp [erasable, hashed, hit], rfl⟩⟩

variable (sound : Sound state corpus db)
include sound

theorem Sound.held_filed (held : HeldLive state.platform db payload) :
    ∃ signature object, Filed state.platform corpus payload signature object := by
  obtain ⟨row, mem, -, live⟩ := held
  obtain ⟨payload', object, filed, -, -, kept⟩ := sound.objects row mem
  obtain rfl : payload' = payload := by simpa [live, eq_comm] using kept
  exact ⟨row.signature, object, filed⟩

variable (injective : CollisionFree state.platform corpus)
include injective

section

variable (held : HeldLive state.platform db payload)
include held

theorem Sound.revision_held {row : PostRevisionRow} (mem : row ∈ db.postRevisions)
    (hashed : row.canonicalHash = state.platform.sha256 payload) :
    ∃ signature p, Filed state.platform corpus payload signature (.postRevision p) ∧ row.postId = p.postId := by
  obtain ⟨_, _, filed⟩ := sound.held_filed held
  obtain ⟨payload', signature, p, filed', records⟩ := sound.revisions row mem
  obtain rfl := injective _ _ filed'.occurs filed.occurs (records.hash.symm.trans hashed)
  exact ⟨signature, p, filed', records.post⟩

theorem Sound.profile_held {row : ProfileRevisionRow}
    (mem : row ∈ db.profileRevisions) (hashed : row.canonicalHash = state.platform.sha256 payload) :
    ∃ signature p, Filed state.platform corpus payload signature (.profileRevision p) ∧ row.user = p.user := by
  obtain ⟨_, _, filed⟩ := sound.held_filed held
  obtain ⟨payload', signature, p, filed', user, hash⟩ := sound.profiles row mem
  obtain rfl := injective _ _ filed'.occurs filed.occurs (hash.symm.trans hashed)
  exact ⟨signature, p, filed', user⟩

theorem Sound.edge_held {row : TrustEdgeRow} (mem : row ∈ db.trustEdges)
    (hashed : row.canonicalHash = state.platform.sha256 payload) :
    ∃ signature e, Filed state.platform corpus payload signature (.trustEdge e) ∧ row.sourceUser = e.fromKey := by
  obtain ⟨_, _, filed⟩ := sound.held_filed held
  obtain ⟨payload', signature, e, filed', hash, source, -, -⟩ := sound.edges row mem
  obtain rfl := injective _ _ filed'.occurs filed.occurs (hash.symm.trans hashed)
  exact ⟨signature, e, filed', source⟩

end

variable {authority : Option Hash} {user : Key}

theorem erasePostRevPayloads_erased {post : Uuid} (run : db.erasePostRevPayloads post authority = .ok after)
    (erased : Erased state.platform db after payload) :
    ∃ signature p, Filed state.platform corpus payload signature (.postRevision p) ∧ p.postId = post := by
  have targeted := (erasePayloads_targeted run erased.1).resolve_left erased.2
  simp only [any_eq_true, decide_eq_true_eq] at targeted
  obtain ⟨row, mem, hashed, named⟩ := targeted
  obtain ⟨signature, p, filed, post⟩ := sound.revision_held injective erased.1 mem hashed
  exact ⟨signature, p, filed, post.symm.trans named⟩

theorem eraseAllForUserKey_erased {authority : Hash} (owned : PostsOwned state.platform corpus)
    (run : eraseAllForUserKey db user authority = .ok after)
    (erased : Erased state.platform db after payload) :
    ∃ held, state.platform.parse payload = some held ∧ identityBinding held = some user := by
  obtain ⟨edged, profiled, posted, unbound, edgesRun, profilesRun, postsRun, unboundRun, rfl⟩ | ⟨-, rfl⟩ :=
    eraseAllForUserKey_statements run
  · obtain ⟨blobs, rfl⟩ := deletePostAttachments_frame unboundRun
    have soundEdged : Sound state corpus edged :=
      Effect.sound (eraseUserTrustEdgePayloads_effect edgesRun) sound
    have soundProfiled : Sound state corpus profiled :=
      Effect.sound (eraseUserProfileRevisionPayloads_effect profilesRun) soundEdged
    -- after the third erasure no statement touches the stored objects
    have gone : ¬ HeldLive state.platform posted payload := erased.2
    by_cases heldEdged : HeldLive state.platform edged payload
    · by_cases heldProfiled : HeldLive state.platform profiled payload
      · have targeted := (erasePayloads_targeted postsRun heldProfiled).resolve_left gone
        simp only [any_eq_true, decide_eq_true_eq] at targeted
        obtain ⟨row, mem, hashed, post, inPosts, sameId, author⟩ := targeted
        obtain ⟨signature, p, filed, named⟩ := soundProfiled.revision_held injective heldProfiled mem hashed
        obtain ⟨payload', signature', p', filed', -, opens⟩ := soundProfiled.posts post inPosts
        have samePost : p.postId = p'.postId := by rw [← named, ← sameId, opens.id]
        have sameAuthor : p.author = p'.author :=
          owned _ _ _ _ _ _ _ _ _ filed filed' (samePost ▸ rfl) rfl
        exact ⟨_, filed.parses, congrArg some (sameAuthor.trans (opens.author.symm.trans author))⟩
      · have targeted := (erasePayloads_targeted profilesRun heldEdged).resolve_left heldProfiled
        simp only [any_eq_true, decide_eq_true_eq] at targeted
        obtain ⟨row, mem, hashed, named⟩ := targeted
        obtain ⟨signature, p, filed, sameUser⟩ := soundEdged.profile_held injective heldEdged mem hashed
        exact ⟨_, filed.parses, congrArg some (sameUser.symm.trans named)⟩
    · have targeted := (erasePayloads_targeted edgesRun erased.1).resolve_left heldEdged
      simp only [any_eq_true, decide_eq_true_eq] at targeted
      obtain ⟨row, mem, hashed, source⟩ := targeted
      obtain ⟨signature, e, filed, sameSource⟩ := sound.edge_held injective erased.1 mem hashed
      exact ⟨_, filed.parses, congrArg some (sameSource.symm.trans source)⟩
  · exact absurd erased.1 erased.2

end Erasure

section Authority

variable {signature : Bytes}

variable {object : SignedPayload} {arrivedFrom : Key}

theorem ingestObject_erased {key : Key} {erasedBytes : Bytes}
    (sound : Sound state corpus db) (injective : CollisionFree state.platform corpus)
    (owned : PostsOwned state.platform corpus) (occurs : corpus payload)
    (admitted : admitObject state.platform payload signature = .ok object)
    (subject : erasureSubject object = some key)
    (run : ingestObject state db payload signature arrivedFrom object = .ok (.applied, after))
    (erased : Erased state.platform db after erasedBytes) :
    ∃ held, state.platform.parse erasedBytes = some held ∧ identityBinding held = some key := by
  obtain ⟨-, rejected⟩ | ⟨a, rfl, applied⟩ | ⟨cls, signer, classed, -, handled⟩ := ingestObject_ok run
  · cases rejected
  · cases subject
    obtain ⟨filed, -, final, erasedRun, rfl⟩ := applyAdminRm_applied occurs (admitObject_ok admitted).1 applied
    have storing : Effect state corpus true db _ := .store filed rfl
    obtain ⟨signature', p, filed', named⟩ := erasePostRevPayloads_erased (storing.sound sound) injective
      erasedRun ⟨erased.1.storeSignedObject, erased.2⟩
    refine ⟨_, filed'.parses, congrArg some ?_⟩
    exact owned _ _ _ _ _ _ _ _ _ filed' filed (by rw [← named]; rfl) rfl
  · have filed := Filed.of_admitted occurs admitted classed
    have storing : Effect state corpus true db _ := filed.storing classed
    have erased : Erased state.platform (db.storeSignedObject cls payload signature
        (state.platform.sha256 payload)) after erasedBytes := ⟨erased.1.storeSignedObject, erased.2⟩
    cases handled with
    | retraction ran =>
      cases subject
      obtain ⟨signature', p, filed', named⟩ := erasePostRevPayloads_erased (storing.sound sound) injective ran erased
      refine ⟨_, filed'.parses, congrArg some ?_⟩
      exact owned _ _ _ _ _ _ _ _ _ filed' filed (by rw [← named]; rfl) rfl
    | deactivation ran =>
      cases subject
      exact eraseAllForUserKey_erased (storing.sound sound) injective owned ran erased
    | _ => cases subject

theorem ingestObject_status {status : ContentStatus}
    (run : ingestObject state db payload signature arrivedFrom object = .ok (status, after)) :
    status ≠ .rejected .adminRemoved := by
  rintro rfl
  obtain ⟨-, invalid⟩ | ⟨a, rfl, applied⟩ | ⟨-, -, -, invalid, -⟩ := ingestObject_ok run
  · cases invalid
  · simp only [applyAdminRm] at applied
    repeat' split at applied
    all_goals first
      | cases applied
      | (obtain ⟨_, -, returned⟩ := bind_ok.mp applied; cases returned)
  · cases invalid

theorem adminRemoved_owner (sound : Sound state corpus db) (owned : PostsOwned state.platform corpus)
    (byHome : RemovedByHome state.platform corpus homeDomain) (occurs : corpus payload)
    (admitted : admitObject state.platform payload signature = .ok object)
    (removed : adminRemoved db object = true) :
    ∃ post key, namedPost object = some (post, key) ∧ ∃ row ∈ db.adminRmAuthorities,
      row.postId = post ∧ row.targetAuthor = key ∧ row.signingInstance = homeDomain key := by
  have blocked : ∀ post key cls, namedPost object = some (post, key) →
      contentClass object = .ok (cls, some key) → adminRmBlocks db post = true →
      ∃ post key, namedPost object = some (post, key) ∧ ∃ row ∈ db.adminRmAuthorities,
        row.postId = post ∧ row.targetAuthor = key ∧ row.signingInstance = homeDomain key := by
    intro post key cls named classed blocks
    have filed := Filed.of_admitted occurs admitted classed
    obtain ⟨row, mem, sameId⟩ := any_eq_true.mp blocks
    simp only [decide_eq_true_eq] at sameId
    obtain ⟨payload', signature', a, filed', postId, target, signer⟩ := sound.authorities row mem
    have sameKey : a.targetAuthor = key :=
      owned _ _ _ _ _ _ post _ _ filed' filed (by rw [namedPost, ← postId, sameId]) named
    refine ⟨post, key, named, row, mem, sameId, target.trans sameKey, ?_⟩
    rw [signer, byHome _ _ _ filed', sameKey]
  cases object with
  | postRevision p => exact blocked _ _ _ rfl rfl removed
  | retraction r => exact blocked _ _ _ rfl rfl removed
  | _ => cases removed

end Authority

/--
In every reachable state of a run whose objects agree on the author of each post, and whose
admin-rms come from the author's home: what an authority erases was signed by the key it has power
over, an admin-rm is applied for no user homed here, and a refusal as removed by an admin is the
word of the home of the refused object's own author.
-/
theorem erasure_needs_authority {state : AppState} {corpus : Corpus} {db : Db}
    (reached : Reachable state corpus (fun _ _ _ => True) db)
    (injective : CollisionFree state.platform corpus) (owned : PostsOwned state.platform corpus)
    (byHome : RemovedByHome state.platform corpus homeDomain)
    {wireBytes : Bytes} (occurs : Occurs state corpus wireBytes) {arrivedFrom : Key}
    {result : ContentResult} {after : Db}
    (run : applyOneObject state db wireBytes arrivedFrom = .ok (result, after))
    {payload signature : Bytes} {object : SignedPayload}
    (decodes : state.platform.decodeSignedObject wireBytes = some (payload, signature))
    (parses : state.platform.parse payload = some object) :
    (∀ key, result.status = .applied → erasureSubject object = some key →
      ∀ bytes, Erased state.platform db after bytes →
        ∃ held, state.platform.parse bytes = some held ∧ identityBinding held = some key) ∧
    (∀ a, result.status = .applied → object = .adminRemoval a →
      ∀ row ∈ db.users, row.publicKey = a.targetAuthor → row.homeInstance ≠ none) ∧
    (result.status = .rejected .adminRemoved →
      ∃ post key, namedPost object = some (post, key) ∧ ∃ row ∈ db.adminRmAuthorities,
        row.postId = post ∧ row.targetAuthor = key ∧ row.signingInstance = homeDomain key) := by
  have sound := reached.sound
  have occurs := occurs payload signature decodes
  refine ⟨?_, ?_, ?_⟩
  · intro key applied subject bytes erased
    obtain ⟨admitted, -, ingested⟩ := applyOneObject_applied run applied decodes parses
    exact ingestObject_erased sound injective owned occurs admitted subject ingested erased
  · rintro a applied rfl row mem sameKey
    obtain ⟨-, -, ingested⟩ := applyOneObject_applied run applied decodes parses
    obtain ⟨-, unknown, -⟩ := applyAdminRm_applied occurs parses ingested
    have known : db.hasUser a.targetAuthor = true :=
      any_eq_true.mpr ⟨row, mem, decide_eq_true sameKey⟩
    rw [unknown] at known
    cases known
  · intro refused
    obtain ⟨-, -, other⟩ | ⟨_, _, _, -, -, -, -, -, ingested⟩ := applyOneObject_ok run
    · obtain ⟨payload', signature', object', decodes', admitted, removed⟩ := other refused
      obtain ⟨rfl, rfl⟩ := Prod.mk.inj (Option.some.inj (decodes.symm.trans decodes'))
      obtain rfl := Option.some.inj (parses.symm.trans (admitObject_ok admitted).1)
      exact adminRemoved_owner sound owned byHome occurs admitted removed
    · exact absurd refused (ingestObject_status ingested)

def ownPost : PostRevision where
  postId := 20
  author := 1
  threadId := 10
  parentId := none
  revision := 0
  body := "text"
  createdAt := 2000
  attachments := []

def retractTable : List SignedPayload :=
  [.profileRevision ⟨1, "a", "", none, 1000, none⟩, .threadCreate ⟨10, 1, "room", "title", none, 20, 2000⟩,
    .postRevision ownPost, .retraction ⟨20, 2, 3000⟩, .retraction ⟨20, 1, 3000⟩]

def retractState : AppState :=
  AppState.ofTable retractTable

def postedDb : Db :=
  deliverObjects retractState {} [([0], 8), ([1], 8), ([2], 8)]

def afterRetract (wireBytes : Bytes) : Db :=
  deliverObject retractState postedDb wireBytes 8

theorem postedDb_reachable {corpus : Corpus} (zero : corpus [0]) (one : corpus [1])
    (two : corpus [2]) : Reachable retractState corpus (fun _ _ _ => True) postedDb := by
  refine Reachable.deliverObjects .start ?_
  intro delivery mem payload signature decodes
  simp only [mem_cons, not_mem_nil, or_false] at mem
  rcases mem with rfl | rfl | rfl <;> cases decodes
  · exact zero
  · exact one
  · exact two

instance (platform : Platform) (db : Db) (payload : Bytes) : Decidable (HeldLive platform db payload) :=
  inferInstanceAs (Decidable (∃ row ∈ db.signedObjects,
    row.canonicalHash = platform.sha256 payload ∧ row.payload = some payload))

instance (platform : Platform) (db after : Db) (payload : Bytes) :
    Decidable (Erased platform db after payload) :=
  inferInstanceAs (Decidable (_ ∧ _))

/-- A key that does not own the post erases it by naming its id. -/
theorem foreign_retract_erases : ∃ state db wireBytes arrivedFrom hash after payload signature bytes r p,
    Reachable state (fun _ => True) (fun _ _ _ => True) db ∧
    state.platform.decodeSignedObject wireBytes = some (payload, signature) ∧
    admitObject state.platform payload signature = .ok (.retraction r) ∧
    applyOneObject state db wireBytes arrivedFrom = .ok (⟨hash, .applied⟩, after) ∧
    Erased state.platform db after bytes ∧ state.platform.parse bytes = some (.postRevision p) ∧
    p.author ≠ r.author := by
  refine ⟨retractState, postedDb, [3], 8, retractState.platform.sha256 [3], afterRetract [3], [3],
    List.replicate 64 0, [2], ⟨20, 2, 3000⟩, ownPost, postedDb_reachable trivial trivial trivial, rfl, rfl, ?_,
    ?_, rfl, by decide⟩
  · rfl
  · decide

def ownRun : List Bytes :=
  [[0], [1], [2], [4]]

theorem own_retract_erases : ∃ bytes, Erased retractState.platform postedDb (afterRetract [4]) bytes ∧
    ∃ held, retractState.platform.parse bytes = some held ∧ identityBinding held = some 1 := by
  have injective : CollisionFree retractState.platform (· ∈ ownRun) := by
    intro a b inA inB same
    have distinct : ∀ a ∈ ownRun, ∀ b ∈ ownRun,
        retractState.platform.sha256 a = retractState.platform.sha256 b → a = b := by decide
    exact distinct a inA b inB same
  have oneKey : ∀ bytes ∈ ownRun,
      ((retractState.platform.parse bytes).bind namedPost).all (fun named => named.2 = 1) = true := by decide
  have named : ∀ payload signature object post key,
      Filed retractState.platform (· ∈ ownRun) payload signature object →
      namedPost object = some (post, key) → key = 1 := by
    intro payload signature object post key filed named
    have bound := oneKey payload filed.occurs
    rw [filed.parses, Option.bind_some, named] at bound
    simpa using bound
  have owned : PostsOwned retractState.platform (· ∈ ownRun) := by
    intro _ _ _ _ _ _ _ _ _ filed filed' post post'
    rw [named _ _ _ _ _ filed post, named _ _ _ _ _ filed' post']
  have noRemoval : ∀ bytes ∈ ownRun, (retractState.platform.parse bytes).all
      (fun object => object.innerClass ≠ some .adminRm) = true := by decide
  have byHome : RemovedByHome retractState.platform (· ∈ ownRun) (fun _ => "") := by
    intro payload signature a filed
    have other := noRemoval payload filed.occurs
    rw [filed.parses] at other
    simp [SignedPayload.innerClass] at other
  have occurs : Occurs retractState (· ∈ ownRun) [4] := by
    intro payload signature decodes
    obtain ⟨rfl, -⟩ := Prod.mk.inj (Option.some.inj decodes)
    decide
  have erased : Erased retractState.platform postedDb (afterRetract [4]) [2] := by decide
  have authorised := erasure_needs_authority (postedDb_reachable (by decide) (by decide) (by decide))
    injective owned byHome occurs (show applyOneObject retractState postedDb [4] 8 =
      .ok (⟨retractState.platform.sha256 [4], .applied⟩, afterRetract [4]) from rfl) rfl
    (show retractState.platform.parse [4] = some (.retraction ⟨20, 1, 3000⟩) from rfl)
  exact ⟨[2], erased, authorised.1 1 rfl rfl [2] erased⟩

end Prismoire
