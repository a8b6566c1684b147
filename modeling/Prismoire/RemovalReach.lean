import Prismoire.LocalErasure
import Prismoire.LocalFiles

namespace Prismoire

open Lib List

/-- The instance answers applied, and holds no text of the post any more. -/
def TakesEffect (state : AppState) (db : Db) (wireBytes : Bytes) (arrivedFrom : Key) (postId : Uuid) : Prop :=
  ∃ result after, applyOneObject state db wireBytes arrivedFrom = .ok (result, after) ∧ result.status = .applied ∧
    ∀ hash, ¬ after.serves state hash postId

/-- What an instance needs for a removal to take effect: it knows no user of the author's key, and got new bytes from the
very instance that signed them. -/
structure RemovalLands (state : AppState) (db : Db) (wireBytes payload signature : Bytes) (arrivedFrom : Key)
    (removal : AdminRemoval) : Prop where
  size : wireBytes.length ≤ maxPostrevSize
  unseen : db.hasObject (state.platform.sha256 payload) = false
  unknown : db.hasUser removal.targetAuthor = false
  domain : peerDomainFor db arrivedFrom = some removal.signingInstance
  verified : signatureOk state.platform payload signature arrivedFrom = true
  projected : ∀ hash, db.serves state hash removal.postId → db.revises hash removal.postId

/-- The checks of `remove_post`, in which the author's home does not occur. -/
structure RemovalAdmits (db : Db) (req : RemovePostRequest) (post : PostRow) : Prop where
  admin : req.isAdmin = true
  reasoned : req.trimmed ≠ ""
  short : req.trimmed.utf8ByteSize ≤ maxReasonLen
  joined : db.hasUser post.author = true
  standing : post.retracted = false
  free : adminRmBlocks db post.id = false

section Origin

variable {host : Host} {sign : Signer} {db : Db} {req : RemovePostRequest} {post : PostRow}

theorem removePost_iff (ids : UniqueBy PostRow.id db.posts) (inPosts : post ∈ db.posts) (named : post.id = req.postId) :
    (∃ signed after, removePost host sign db req = .ok (signed, after)) ↔ RemovalAdmits db req post := by
  constructor
  · rintro ⟨signed, after, run⟩
    have joined : db.hasUser post.author = true := by
      unfold removePost at run
      repeat' split at run
      all_goals try cases run
      rename_i found _
      have passes := find?_some found
      simp only [Bool.and_eq_true, decide_eq_true_eq] at passes
      obtain rfl := ids.eq (mem_of_find?_eq_some found) inPosts (passes.1.trans named.symm)
      exact passes.2
    obtain ⟨other, inOther, same, standing, admin, reasoned, short, -, committed⟩ := removePost_ok run
    obtain rfl := ids.eq inOther inPosts (same.trans named.symm)
    exact ⟨admin, reasoned, short, joined, standing, (commitRemoval_ok committed).1⟩
  · intro admits
    have found : db.posts.find? (fun other => decide (other.id = req.postId) && db.hasUser other.author) = some post := by
      cases search : db.posts.find? fun other => decide (other.id = req.postId) && db.hasUser other.author with
      | none => exact absurd (by simp [named, admits.joined]) (find?_eq_none.mp search post inPosts)
      | some other =>
        have passes := find?_some search
        simp only [Bool.and_eq_true, decide_eq_true_eq] at passes
        rw [ids.eq (mem_of_find?_eq_some search) inPosts (passes.1.trans named.symm)]
    have committed : ∃ after, commitRemoval host sign db (req.removal host post) = .ok after := by
      have free : (!adminRmBlocks db post.id) = true := by rw [admits.free]; rfl
      exact ⟨_, require_bind_ok.mpr ⟨free, rfl⟩⟩
    obtain ⟨after, committed⟩ := committed
    refine ⟨sign (.adminRemoval (req.removal host post)), after, ?_⟩
    have short := not_lt.mpr admits.short
    simp only [removePost, admits.admin, admits.reasoned, short, found, admits.standing, committed, Bool.not_true,
      Bool.false_eq_true, if_false]

end Origin

section Receipt

variable {state : AppState} {corpus : Corpus} {db after : Db} {wireBytes payload signature : Bytes}
  {arrivedFrom : Key} {removal : AdminRemoval}

theorem applyAdminRm_silences (occurs : corpus payload)
    (parses : state.platform.parse payload = some (.adminRemoval removal))
    (run : applyAdminRm state db arrivedFrom payload signature removal = .ok (.applied, after)) :
    Silences state (· = removal.postId) db after := by
  obtain ⟨-, -, erased, erasedRun, rfl⟩ := applyAdminRm_applied occurs parses run
  have silenced : Silences state (· = removal.postId) _ erased := .of_erase erasedRun
  intro hash id
  refine Iff.trans (b := erased.serves state hash id) (serves_congr rfl) ?_
  rw [silenced hash id]
  exact and_congr (serves_store parses (by simp)) Iff.rfl

theorem takesEffect_iff (ord : Orderly db) (occurs : corpus payload)
    (decodes : state.platform.decodeSignedObject wireBytes = some (payload, signature))
    (parses : state.platform.parse payload = some (.adminRemoval removal)) :
    TakesEffect state db wireBytes arrivedFrom removal.postId ↔
      RemovalLands state db wireBytes payload signature arrivedFrom removal := by
  constructor
  · rintro ⟨result, after, run, applied, silent⟩
    have size : wireBytes.length ≤ maxPostrevSize := by
      by_contra large
      rw [applyOneObject, if_pos (not_le.mp large)] at run
      cases run
      cases applied
    obtain ⟨-, unseen, ingested⟩ := applyOneObject_applied run applied decodes parses
    have silences := applyAdminRm_silences occurs parses ingested
    obtain ⟨-, unknown, -⟩ := applyAdminRm_applied occurs parses ingested
    refine ⟨size, unseen, unknown, ?_, ?_, ?_⟩
    · by_contra apart
      simp only [ingestObject, applyAdminRm, unknown, Bool.false_eq_true, if_false, if_pos apart] at ingested
      cases ingested
    · by_contra unverified
      simp only [ingestObject, applyAdminRm, unknown, Bool.false_eq_true, if_false] at ingested
      split at ingested
      · cases ingested
      · rw [if_pos (by simpa using unverified)] at ingested
        cases ingested
    · intro hash served
      by_contra unrevised
      refine silent hash ((silences hash removal.postId).mpr ⟨served, fun other hit revises => unrevised ?_⟩)
      exact of_decide_eq_true hit ▸ revises
  · intro lands
    obtain ⟨⟨status, after⟩, ingested⟩ := @applyAdminRm_total state db payload signature arrivedFrom removal ord
    have applied : status = .applied := by
      unfold applyAdminRm at ingested
      simp only [lands.unknown, lands.domain, lands.verified, Bool.false_eq_true, Bool.not_true, if_false, ne_eq,
        not_true_eq_false] at ingested
      obtain ⟨erased, -, returned⟩ := bind_ok.mp ingested
      cases returned
      rfl
    subst applied
    have fresh : knownStatus db (state.platform.sha256 payload) = none := by
      rw [knownStatus, Db.find?_none_of_hasObject lands.unseen]
      rfl
    have admitted : admitObject state.platform payload signature = .ok (.adminRemoval removal) := by
      simp only [admitObject, parses, contentClass]
    refine ⟨⟨state.platform.sha256 payload, .applied⟩, after, ?_, rfl, ?_⟩
    · simp only [applyOneObject, if_neg (not_lt.mpr lands.size), decodes, fresh, admitted, adminRemoved,
        Bool.false_eq_true, if_false, ingestObject, ingested]
      rfl
    · intro hash served
      obtain ⟨before, unrevised⟩ := (applyAdminRm_silences occurs parses ingested hash removal.postId).mp served
      exact unrevised removal.postId (decide_eq_true rfl) (lands.projected hash before)

end Receipt

/-- The `admin-rm` of a removal takes effect at exactly those instances that know no user of the author's key, that got it
from its signer and that have not parked a post-rev of the post, hence at none that holds a post of the author; and
`remove_post` signs one for each post that passes its checks, wherever the author lives. -/
theorem removal_reach {host peer : Host} {corpus : Corpus} {sign : Signer} {origin db : Db}
    {req : RemovePostRequest} {post : PostRow} (originReached : ErasureReachable host corpus origin)
    (reached : ErasureReachable peer corpus db) (samePlatform : peer.platform = host.platform)
    (inPosts : post ∈ origin.posts) (named : post.id = req.postId)
    (signs : Signs host.toAppState corpus sign (.adminRemoval (req.removal host post))) :
    let removal := req.removal host post
    let signed := sign (.adminRemoval removal)
    (∀ wireBytes arrivedFrom, peer.platform.decodeSignedObject wireBytes = some (signed.payload, signed.signature) →
      (TakesEffect peer.toAppState db wireBytes arrivedFrom req.postId ↔
        RemovalLands peer.toAppState db wireBytes signed.payload signed.signature arrivedFrom removal) ∧
      ((∃ held ∈ db.posts, held.author = post.author) →
        ¬ TakesEffect peer.toAppState db wireBytes arrivedFrom req.postId)) ∧
    ((∃ after, removePost host sign origin req = .ok (signed, after)) ↔ RemovalAdmits origin req post) ∧
    ((∀ after, removePost host sign origin req = .ok (signed, after) → origin.livesHere post.author = true) ↔
      (RemovalAdmits origin req post → origin.livesHere post.author = true)) := by
  have parses : peer.platform.parse (sign (.adminRemoval (req.removal host post))).payload =
      some (.adminRemoval (req.removal host post)) := by
    rw [samePlatform]
    exact signs.parses
  have signing : (∃ after, removePost host sign origin req = .ok (sign (.adminRemoval (req.removal host post)), after)) ↔
      RemovalAdmits origin req post := by
    have ids := originReached.kept.ints.postIds
    refine Iff.trans ⟨fun ⟨after, run⟩ => ⟨_, after, run⟩, ?_⟩ (removePost_iff ids inPosts named)
    rintro ⟨signed, after, run⟩
    obtain ⟨other, inOther, same, -, -, -, -, rfl, -⟩ := removePost_ok run
    obtain rfl := ids.eq inOther inPosts (same.trans named.symm)
    exact ⟨after, run⟩
  refine ⟨?_, signing, ?_⟩
  · intro wireBytes arrivedFrom decodes
    have lands : TakesEffect peer.toAppState db wireBytes arrivedFrom req.postId ↔
        RemovalLands peer.toAppState db wireBytes (sign (.adminRemoval (req.removal host post))).payload
          (sign (.adminRemoval (req.removal host post))).signature arrivedFrom (req.removal host post) := by
      rw [← named]
      exact takesEffect_iff reached.kept.ord signs.occurs decodes parses
    refine ⟨lands, ?_⟩
    rintro ⟨held, inDb, author⟩ effect
    have known := reached.kept.indexed.authors held inDb
    have unknown := (lands.mp effect).unknown
    rw [author] at known
    exact absurd known (by simpa [RemovePostRequest.removal] using unknown)
  · exact ⟨fun all admits => (signing.mpr admits).elim all, fun lives after run => lives (signing.mp ⟨after, run⟩)⟩

/-- An instance that is told of the home of user 5. -/
def reachHost : Host :=
  { AppState.ofTable erasureTable with instanceKey := 8, instanceDomain := "there" }

def reachPeers : List PeerRow :=
  [⟨9, "here"⟩, ⟨7, "relay"⟩]

/-- The thread of user 5, as it arrives from the user's home. -/
def reachDb : Db :=
  deliverObjects reachHost.toAppState { peers := reachPeers } [([0], 9), ([3], 9), ([2], 9)]

theorem reach_fresh : TakesEffect reachHost.toAppState { peers := reachPeers } [4] 9 21 ∧
    ∃ after, removePost erasureHost signErasure erasureDb ⟨true, 21, "spam", 4⟩ =
      .ok (signErasure (.adminRemoval ⟨21, 5, "here", 4000, some "spam"⟩), after) := by
  have peered : ErasureReachable reachHost erasureBytes { peers := reachPeers } :=
    .single (.blob (.operate (.peers reachPeers)))
  obtain ⟨post, inPosts, named, author⟩ : ∃ post ∈ erasureDb.posts, post.id = 21 ∧ post.author = 5 := by decide +kernel
  have removal : RemovePostRequest.removal erasureHost ⟨true, 21, "spam", 4⟩ post = ⟨21, 5, "here", 4000, some "spam"⟩ := by
    rw [RemovePostRequest.removal, named, author]
    decide +kernel
  have signs : Signs erasureHost.toAppState erasureBytes signErasure
      (.adminRemoval (RemovePostRequest.removal erasureHost ⟨true, 21, "spam", 4⟩ post)) := by
    rw [removal]
    exact ⟨by decide +kernel, rfl, 5, by decide +kernel⟩
  obtain ⟨receipt, signing, -⟩ := removal_reach erasureDb_reached peered rfl inPosts named signs
  rw [removal] at receipt signing
  have admits : RemovalAdmits erasureDb ⟨true, 21, "spam", 4⟩ post := by
    have standing : ∀ post ∈ erasureDb.posts, erasureDb.hasUser post.author = true ∧ post.retracted = false ∧
        adminRmBlocks erasureDb post.id = false := by decide +kernel
    obtain ⟨joined, stands, free⟩ := standing post inPosts
    exact ⟨rfl, by decide +kernel, by decide +kernel, joined, stands, free⟩
  refine ⟨((receipt [4] 9 (by decide +kernel)).1).mpr ⟨?_, ?_, ?_, ?_, ?_, ?_⟩, signing.mpr admits⟩
  · decide +kernel
  · decide +kernel
  · decide +kernel
  · decide +kernel
  · decide +kernel
  · rintro hash ⟨row, mem, -⟩
    cases mem

/-- The home of user 5 removes the thread's post: an instance that holds it refuses the removal and keeps the text, one that
gets it from a relay refuses it too. And an instance that is not the user's home signs a removal as well. -/
theorem reach_refused : removePost erasureHost signErasure erasureDb ⟨true, 21, "spam", 4⟩ =
      .ok (signErasure (.adminRemoval ⟨21, 5, "here", 4000, some "spam"⟩), removedDb) ∧
    (∃ held ∈ reachDb.posts, held.id = 21 ∧ held.author = 5) ∧
    applyOneObject reachHost.toAppState reachDb [4] 9 = .ok (⟨5, .rejected .wrongRoute⟩, reachDb) ∧
    applyOneObject reachHost.toAppState { peers := reachPeers } [4] 7 =
      .ok (⟨5, .rejected .unauthorizedSigner⟩, { peers := reachPeers }) ∧
    reachDb.livesHere 5 = false ∧
    ∃ signed after, removePost reachHost signErasure reachDb ⟨true, 21, "spam", 4⟩ = .ok (signed, after) := by
  refine ⟨by decide +kernel, by decide +kernel, by decide +kernel, by decide +kernel, by decide +kernel, ?_⟩
  have succeeds : (removePost reachHost signErasure reachDb ⟨true, 21, "spam", 4⟩).isOk = true := by decide +kernel
  cases run : removePost reachHost signErasure reachDb ⟨true, 21, "spam", 4⟩ with
  | error reason =>
    rw [run] at succeeds
    cases succeeds
  | ok removed => exact ⟨removed.1, removed.2, rfl⟩

end Prismoire
