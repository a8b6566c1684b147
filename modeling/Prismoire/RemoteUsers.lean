import Prismoire.TrustEdges

namespace Prismoire

open Lib Db

/-- `char::is_control`: the general category Cc. -/
def isControl (c : Char) : Bool :=
  c.toNat ≤ 0x1F || (0x7F ≤ c.toNat && c.toNat ≤ 0x9F)

/-- The zero-width and bidirectional format characters that a remote name may not carry. -/
def isStrippedFormat (c : Char) : Bool :=
  (0x200B ≤ c.toNat && c.toNat ≤ 0x200F) || (0x202A ≤ c.toNat && c.toNat ≤ 0x202E) ||
    (0x2060 ≤ c.toNat && c.toNat ≤ 0x2064) || (0x2066 ≤ c.toNat && c.toNat ≤ 0x2069) ||
    c.toNat == 0xFEFF

/-- The Unicode property White_Space, which `str::trim` removes at both ends. -/
def isWhiteSpace (c : Char) : Bool :=
  (0x9 ≤ c.toNat && c.toNat ≤ 0xD) || (0x2000 ≤ c.toNat && c.toNat ≤ 0x200A) ||
    [0x20, 0x85, 0xA0, 0x1680, 0x2028, 0x2029, 0x202F, 0x205F, 0x3000].contains c.toNat

def trim (chars : List Char) : List Char :=
  ((chars.dropWhile isWhiteSpace).reverse.dropWhile isWhiteSpace).reverse

def hexDigit (n : Nat) : Char :=
  if n < 10 then Char.ofNat ('0'.toNat + n) else Char.ofNat ('a'.toNat + (n - 10))

/-- Lower-case hex of the first four bytes of a key. -/
def keyHandle (key : Key) : Text :=
  String.ofList ((List.range 8).map fun i => hexDigit (key.toNat / 16 ^ (63 - i) % 16))

def sanitizeRemoteDisplayName (raw : Text) (publicKey : Key) : Text :=
  let cleaned := raw.toList.filter fun c => !isControl c && !isStrippedFormat c
  let trimmed := trim cleaned
  if trimmed.isEmpty then keyHandle publicKey else String.ofList trimmed

section

variable (state : AppState) (db : Db)

/-- Inserts a federated stub, or refreshes one; a row with another sign-up method is kept. -/
def hydrateStubUser (publicKey : Key) (displayName : Text) (homeInstance : Key) : Db :=
  let name := sanitizeRemoteDisplayName displayName publicKey
  let skeleton := state.platform.displayNameSkeleton name
  { db with
    users :=
      match db.user? publicKey with
      | some row =>
        if row.signupMethod = .federated then
          updateWhere (·.publicKey = publicKey) (fun user => { user with
              displayName := name, displayNameSkeleton := skeleton, homeInstance := some homeInstance })
            db.users
        else
          db.users
      | none =>
        db.users ++
          [{ publicKey, displayName := name, displayNameSkeleton := skeleton, signupMethod := .federated,
             homeInstance := some homeInstance }] }

def resolveCurrentHome (db : Db) (userKey arrivedFrom : Key) : Key :=
  match db.userHomes.find? (·.userKey = userKey) with
  | some row => row.currentHomeKey
  | none => arrivedFrom

def fetchMove (canonicalHash : Hash) : Option Move := do
  let row ← db.signedObjects.find? fun row => row.canonicalHash = canonicalHash ∧ row.innerClass = .move
  let payload ← row.payload
  match state.platform.parse payload with
  | some (.move m) => some m
  | _ => none

def moveLater (a b : UserMoveRow) : Bool :=
  b.createdAt < a.createdAt || (a.createdAt == b.createdAt && a.canonicalHash < b.canonicalHash)

def moveEarlier (a b : UserMoveRow) : Bool :=
  a.createdAt < b.createdAt || (a.createdAt == b.createdAt && a.canonicalHash < b.canonicalHash)

/-- The home a key had when it signed an object: its last move up to then, else where its first
move left from, else the peer the object came from. -/
def resolveHomeAtT (userKey : Key) (t : Nat) (arrivedFrom : Key) : Key :=
  let moves := db.userMoves.filter (·.userKey = userKey)
  match firstBy moveLater (moves.filter fun row => row.createdAt ≤ clampI64 t) with
  | some row =>
    match fetchMove state db row.canonicalHash with
    | some m => m.toInstanceKey
    | none => arrivedFrom
  | none =>
    match firstBy moveEarlier moves with
    | some row =>
      match fetchMove state db row.canonicalHash with
      | some m => m.fromInstanceKey.getD arrivedFrom
      | none => arrivedFrom
    | none => arrivedFrom

/-- `content::is_local_authoritative`; a key without a row counts only on a looped-back delivery. -/
def isLocalAuthoritative (userKey arrivedFrom : Key) : Bool :=
  match db.user? userKey with
  | some row => row.homeInstance.isNone
  | none => arrivedFrom = state.instanceKey

end

theorem hasUser_eq (db : Db) (key : Key) : db.hasUser key = (db.user? key).isSome := by
  rw [Bool.eq_iff_iff]
  simp [hasUser, user?]

theorem hasUser_hydrateStubUser {state : AppState} {db : Db} {publicKey homeInstance key : Key} {displayName : Text} :
    (hydrateStubUser state db publicKey displayName homeInstance).hasUser key = true ↔
      key = publicKey ∨ db.hasUser key = true := by
  cases found : db.user? publicKey with
  | none =>
    simp only [hydrateStubUser, found, hasUser, List.any_append, List.any_cons, List.any_nil,
      Bool.or_false, Bool.or_eq_true, decide_eq_true_eq]
    rw [or_comm, eq_comm]
  | some row =>
    have present : db.hasUser publicKey = true := by simp [hasUser_eq, found]
    have same : (hydrateStubUser state db publicKey displayName homeInstance).hasUser key = db.hasUser key := by
      simp only [hydrateStubUser, found, hasUser]
      split
      · apply any_updateWhere
        intro row
        rfl
      · rfl
    rw [same]
    constructor
    · exact .inr
    · rintro (rfl | known)
      · exact present
      · exact known

end Prismoire
