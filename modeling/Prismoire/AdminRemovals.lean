import Prismoire.PostWrites
import Prismoire.Refcounts
import Prismoire.Status

namespace Prismoire

open Lib

def maxReasonLen : Nat := 1000

def removalText : Text := "[removed by admin]"

inductive RemovalError where
  | notAdmin
  | reasonRequired
  | reasonTooLong
  | postNotFound
  | postAlreadyRetracted
  | sql (violated : SqlError)
  deriving DecidableEq

structure RemovePostRequest where
  isAdmin : Bool
  postId : Uuid
  reason : Text
  now : Nat

def RemovePostRequest.trimmed (req : RemovePostRequest) : Text :=
  String.ofList (trim req.reason.toList)

def Db.replaceBodies (db : Db) (selected : Uuid → Bool) (text : Text) : Db :=
  { db with
    postRevisions := updateWhere (fun row => selected row.postId) (fun row => { row with body := text })
      db.postRevisions }

/-- The `admin-rm` of a post; its author is read off the joined `users` row. -/
def RemovePostRequest.removal (host : Host) (req : RemovePostRequest) (post : PostRow) : AdminRemoval :=
  { postId := post.id, targetAuthor := post.author, signingInstance := host.instanceDomain,
    createdAt := req.now * 1000, reason := some req.trimmed }

section Handler

variable (host : Host) (sign : Signer)

/-- The transaction of `remove_post`: no payload is erased, no binding dropped and no blob collected in it. -/
def commitRemoval (db : Db) (removal : AdminRemoval) : Sql Db := do
  let signed := sign (.adminRemoval removal)
  let canonicalHash := host.platform.sha256 signed.payload
  let db := db.retractPosts (·.id = removal.postId)
  let db := db.replaceBodies (· = removal.postId) removalText
  let db := db.storeSignedObject .adminRm signed.payload signed.signature canonicalHash
  require (!adminRmBlocks db removal.postId) .primaryKey
  return insertAdminRmAuthority db
    { postId := removal.postId, targetAuthor := removal.targetAuthor, signingInstance := removal.signingInstance,
      createdAt := asI64 removal.createdAt, canonicalHash }

def removePost (db : Db) (req : RemovePostRequest) : Except RemovalError (SigningOutput × Db) :=
  if !req.isAdmin then
    .error .notAdmin
  else if req.trimmed = "" then
    .error .reasonRequired
  else if maxReasonLen < req.trimmed.utf8ByteSize then
    .error .reasonTooLong
  else
    match db.posts.find? fun post => decide (post.id = req.postId) && db.hasUser post.author with
    | none => .error .postNotFound
    | some post =>
      if post.retracted then
        .error .postAlreadyRetracted
      else
        let removal := req.removal host post
        match commitRemoval host sign db removal with
        | .error violated => .error (.sql violated)
        | .ok after => .ok (sign (.adminRemoval removal), after)

end Handler

section Writes

variable {host : Host} {sign : Signer} {db after : Db} {req : RemovePostRequest}
  {signed : SigningOutput}

theorem removePost_ok (run : removePost host sign db req = .ok (signed, after)) :
    ∃ post ∈ db.posts, post.id = req.postId ∧ post.retracted = false ∧
      req.isAdmin = true ∧ req.trimmed ≠ "" ∧ req.trimmed.utf8ByteSize ≤ maxReasonLen ∧
      signed = sign (.adminRemoval (req.removal host post)) ∧
      commitRemoval host sign db (req.removal host post) = .ok after := by
  unfold removePost at run
  split at run
  · cases run
  · rename_i admin
    split at run
    · cases run
    · rename_i reasoned
      split at run
      · cases run
      · rename_i short
        split at run
        · cases run
        · rename_i post found
          split at run
          · cases run
          · rename_i standing
            dsimp only at run
            split at run
            · cases run
            · rename_i final committed
              cases run
              have same := List.find?_some found
              simp only [Bool.and_eq_true, decide_eq_true_eq] at same
              exact ⟨post, List.mem_of_find?_eq_some found, same.1, by simpa using standing, by simpa using admin, reasoned,
                not_lt.mp short, rfl, committed⟩

theorem commitRemoval_ok {removal : AdminRemoval} (run : commitRemoval host sign db removal = .ok after) :
    adminRmBlocks db removal.postId = false ∧ after = insertAdminRmAuthority
        (((db.retractPosts (·.id = removal.postId)).replaceBodies (· = removal.postId) removalText).storeSignedObject
          .adminRm (sign (.adminRemoval removal)).payload (sign (.adminRemoval removal)).signature
          (host.platform.sha256 (sign (.adminRemoval removal)).payload))
        { postId := removal.postId, targetAuthor := removal.targetAuthor, signingInstance := removal.signingInstance,
          createdAt := asI64 removal.createdAt,
          canonicalHash := host.platform.sha256 (sign (.adminRemoval removal)).payload } := by
  unfold commitRemoval at run
  simp only [require_bind_ok, Bool.not_eq_true'] at run
  obtain ⟨free, returned⟩ := run
  cases returned
  exact ⟨free, rfl⟩

end Writes

variable {host : Host} {corpus : Corpus} {sign : Signer} {db after : Db}
  {removal : AdminRemoval} {state : AppState}

theorem Sound.replaceBodies (sound : Sound state corpus db) (selected : Uuid → Bool) (text : Text) :
    Sound state corpus (db.replaceBodies selected text) :=
  { sound with
    revisions := forall_mem_updateWhere sound.revisions fun _ ⟨payload, signature, p, filed, records⟩ =>
      ⟨payload, signature, p, filed, records.post, records.revision, records.hash⟩ }

theorem Integrity.replaceBodies (ints : Integrity state corpus db) (selected : Uuid → Bool)
    (text : Text) : Integrity state corpus (db.replaceBodies selected text) :=
  ints.updateRevisions (fun _ => rfl) (fun _ => rfl) fun _ => rfl

theorem commitRemoval_keeps {Keeps : Db → Prop}
    (effects : ∀ db after, Effects host.toAppState corpus false db after → Keeps db → Keeps after)
    (replaced : ∀ db selected text, Keeps db → Keeps (db.replaceBodies selected text))
    (signs : Signs host.toAppState corpus sign (.adminRemoval removal))
    (run : commitRemoval host sign db removal = .ok after) (kept : Keeps db) : Keeps after := by
  obtain ⟨-, rfl⟩ := commitRemoval_ok run
  have retracted := effects _ _ (.single (.retract (·.id = removal.postId))) kept
  exact effects _ _ ((Relation.ReflTransGen.single (signs.store rfl)).tail (.authority signs rfl rfl rfl))
    (replaced _ _ _ retracted)

end Prismoire
