import Prismoire.EdgeBackfill
import Prismoire.LocalTrust

namespace Prismoire

open Lib List Option Db

abbrev Signing := TrustCall × SignedMutation

namespace Signing

variable (platform : Platform)

variable (t : Signing)

/-- The second of a call, as its row carries it. -/
def stamp : Text :=
  (platform.formatTimestamp t.1.now).getD ""

def hash : Hash :=
  t.2.canonicalHash

def prior : Option Hash :=
  t.2.edge.priorEdgeHash

def homeRow : TrustEdgeRow :=
  localEdgeRow t.2 t.1.id (t.stamp platform)

/-- What the walk sends of a call's edge while its payload is there. -/
def chainRow : ChainRow where
  payload := t.2.payload
  signature := t.2.signature
  createdAt := t.stamp platform
  canonicalHash := t.hash

/-- The place of a call's edge in the walk. -/
def place : Cursor :=
  ⟨t.stamp platform, t.hash⟩

end Signing

/--
The calls on one pair that went through at its home, among other work that leaves the pair's rows and
their stored bytes alone. Each edge that is signed has a hash that the store does not hold yet.
-/
inductive HomeRun (state : AppState) (sign : TrustEdge → Bytes × Bytes) (user target : Key) (start : Db) :
    List Signing → Db → Prop
  | start : HomeRun state sign user target start [] start
  | call {trail db call signed after} : HomeRun state sign user target start trail db →
      mutateTrustEdge state sign db user target call = .ok (signed, after) →
      db.hasObject signed.canonicalHash = false →
      HomeRun state sign user target start (trail ++ [(call, signed)]) after
  | other {trail db after} : HomeRun state sign user target start trail db →
      after.pairEdges user target = db.pairEdges user target →
      (∀ key, db.hasUser key = true → after.hasUser key = true) →
      (∀ t ∈ trail, after.signedObjects.find? (·.canonicalHash = t.2.canonicalHash) =
        db.signedObjects.find? (·.canonicalHash = t.2.canonicalHash)) →
      HomeRun state sign user target start trail after

section Signed

variable {state : AppState} {sign : TrustEdge → Bytes × Bytes} {db after : Db} {user target : Key}
  {call : TrustCall} {signed : SignedMutation} {trail : List Signing}

theorem mutateTrustEdge_first (blank : db.pairEdges user target = [])
    (run : mutateTrustEdge state sign db user target call = .ok (signed, after)) : call.stance ≠ .neutral := by
  intro neutral
  have hidden : (db.currentTrustEdge user target).isNone = true := by
    simp [currentTrustEdge, blank, firstBy]
  simp only [mutateTrustEdge, if_pos neutral, deleteTrustEdge, hidden, if_true] at run
  split at run
  · cases run
  · split at run
    · cases run
    · split at run <;> cases run

/-- The stored bytes of an edge are its own, unless a revocation of the pair erased them. -/
def Stored (trail : List Signing) (db : Db) (t : Signing) : Prop :=
  ∃ object, db.signedObjects.find? (·.canonicalHash = t.hash) = some object ∧ object.signature = t.2.signature ∧
    (object.payload = some t.2.payload ∨ object.payload = none ∧ ∃ s ∈ trail, s.1.stance = .neutral)

structure Made (platform : Platform) (user target : Key) (t : Signing) : Prop where
  source : t.2.edge.fromKey = user
  target : t.2.edge.toKey = target
  stance : t.2.edge.stance = t.1.stance
  createdAt : t.2.edge.createdAt = t.1.now * 1000
  hashed : t.2.canonicalHash = platform.sha256 t.2.payload
  stamped : platform.formatTimestamp t.1.now = some (t.stamp platform)

structure Kept (platform : Platform) (user target : Key) (trail : List Signing) (db : Db) : Prop where
  rows : db.pairEdges user target = trail.map (Signing.homeRow platform)
  stored : ∀ t ∈ trail, Stored trail db t
  made : ∀ t ∈ trail, Made platform user target t
  known : trail ≠ [] → db.hasUser user = true ∧ db.hasUser target = true
  distinct : (trail.map Signing.hash).Nodup
  first : ∀ t, trail.head? = some t → t.1.stance ≠ .neutral

theorem Stored.hasObject {t : Signing} (stored : Stored trail db t) : db.hasObject t.hash = true := by
  obtain ⟨object, found, -⟩ := stored
  have named := find?_some found
  exact List.any_eq_true.mpr ⟨object, mem_of_find?_eq_some found, named⟩

theorem eraseTrustEdgeChain_find? {hash except : Hash} {object : SignedObjectRow}
    (erases : db.eraseTrustEdgeChain user target except = .ok after)
    (found : db.signedObjects.find? (·.canonicalHash = hash) = some object) :
    ∃ left, after.signedObjects.find? (·.canonicalHash = hash) = some left ∧ left.signature = object.signature ∧
      (left.payload = object.payload ∨ left.payload = none ∧ hash ≠ except) := by
  rw [erasePayloads_frame erases, find?_updateWhere (by intro row _; rfl), found]
  refine ⟨_, rfl, ?_, ?_⟩
  · beta_reduce
    split <;> rfl
  · beta_reduce
    split
    · rename_i hit
      have named : object.canonicalHash = hash := by simpa using find?_some found
      simp only [erasable, Bool.and_eq_true, decide_eq_true_eq, named] at hit
      exact .inr ⟨rfl, hit.2.1⟩
    · exact .inl rfl

theorem Stored.written {written : Db} {t : Signing} {objects : List SignedObjectRow}
    (stored : Stored trail db t) (grown : written.signedObjects = db.signedObjects ++ objects)
    (erases : after = written ∨ call.stance = .neutral ∧
      written.eraseTrustEdgeChain user target signed.canonicalHash = .ok after) :
    Stored (trail ++ [(call, signed)]) after t := by
  obtain ⟨object, found, signature, payload⟩ := stored
  have found' : written.signedObjects.find? (·.canonicalHash = t.hash) = some object := by
    rw [grown, find?_append, found]
    rfl
  have payload' : object.payload = some t.2.payload ∨
      object.payload = none ∧ ∃ s ∈ trail ++ [(call, signed)], s.1.stance = .neutral := by
    refine payload.imp id ?_
    rintro ⟨erased, s, inTrail, neutral⟩
    exact ⟨erased, s, mem_append_left _ inTrail, neutral⟩
  rcases erases with rfl | ⟨neutral, erases⟩
  · exact ⟨object, found', signature, payload'⟩
  · have revoked : ∃ s ∈ trail ++ [(call, signed)], s.1.stance = .neutral := ⟨(call, signed), by simp, neutral⟩
    obtain ⟨left, found'', signature', kept | ⟨erased, -⟩⟩ := eraseTrustEdgeChain_find? erases found'
    · exact ⟨left, found'', signature'.trans signature, by rwa [kept]⟩
    · exact ⟨left, found'', signature'.trans signature, .inr ⟨erased, revoked⟩⟩

theorem Kept.extend (kept : Kept state.platform user target trail db)
    (step : mutateTrustEdge state sign db user target call = .ok (signed, after))
    (absent : db.hasObject signed.canonicalHash = false) :
    Kept state.platform user target (trail ++ [(call, signed)]) after := by
  obtain ⟨edge, -, hashed, nowIso, written, formatted, writes, erases⟩ := mutateTrustEdge_writes step
  obtain ⟨knowsSource, knowsTarget, users⟩ := mutateTrustEdge_users step
  obtain ⟨-, -, -, objects⟩ := writeTrustEdge_writes writes
  have grown := objects absent
  have stamp : Signing.stamp state.platform (call, signed) = nowIso := by
    simp [Signing.stamp, formatted]
  have framed : after.trustEdges = written.trustEdges := by
    rcases erases with rfl | ⟨-, erases⟩
    · rfl
    · rw [erasePayloads_frame erases]
  refine ⟨?_, ?_, ?_, ?_, ?_, ?_⟩
  · rw [pairEdges_written edge (framed.trans (congrArg Db.trustEdges (writeTrustEdge_ok writes))), kept.rows, map_append,
      map_singleton, Signing.homeRow, stamp]
  · refine forall_mem_concat.mpr ⟨fun t old => (kept.stored t old).written grown erases, ?_⟩
    have missing : db.signedObjects.find? (·.canonicalHash = signed.canonicalHash) = none :=
      Db.find?_none_of_hasObject absent
    have fresh : written.signedObjects.find? (·.canonicalHash = signed.canonicalHash) =
        some { canonicalHash := signed.canonicalHash, innerClass := .trustEdge,
               payload := some signed.payload, signature := signed.signature } := by
      rw [grown, find?_append, missing]
      simp
    rcases erases with rfl | ⟨neutral, erases⟩
    · exact ⟨_, fresh, rfl, .inl rfl⟩
    · obtain ⟨left, found, signature, payload | ⟨-, other⟩⟩ := eraseTrustEdgeChain_find? erases fresh
      · exact ⟨left, found, signature, .inl payload⟩
      · exact absurd rfl other
  · refine forall_mem_concat.mpr ⟨kept.made, ?_⟩
    refine ⟨?_, ?_, ?_, ?_, hashed, by rw [stamp]; exact formatted⟩ <;> rw [edge] <;> rfl
  · intro _
    simp only [hasUser, users]
    exact ⟨knowsSource, knowsTarget⟩
  · rw [map_append, nodup_append]
    refine ⟨kept.distinct, by simp, ?_⟩
    rintro hash old other new rfl
    obtain ⟨t, inTrail, rfl⟩ := List.mem_map.mp old
    have present := (kept.stored t inTrail).hasObject
    rw [mem_singleton.mp new] at present
    exact absurd present (by simp [Signing.hash, absent])
  · intro t isFirst
    cases trail with
    | nil =>
      obtain rfl : (call, signed) = t := by simpa using isFirst
      exact mutateTrustEdge_first (by simpa using kept.rows) step
    | cons head rest => exact kept.first t isFirst

theorem HomeRun.kept {start : Db} (blank : start.pairEdges user target = [])
    (run : HomeRun state sign user target start trail db) : Kept state.platform user target trail db := by
  induction run with
  | start => exact ⟨by simp [blank], by simp, by simp, by simp, by simp, by simp⟩
  | call _ step absent ih => exact ih.extend step absent
  | other _ rows users objects ih =>
    refine ⟨rows.trans ih.rows, ?_, ih.made, ?_, ih.distinct, ih.first⟩
    · intro t mem
      obtain ⟨object, found, kept⟩ := ih.stored t mem
      exact ⟨object, (objects t mem).trans found, kept⟩
    · intro nonempty
      exact ⟨users user (ih.known nonempty).1, users target (ih.known nonempty).2⟩

end Signed

namespace Cursor

theorem before_asymm (a b : Cursor) (order : a.before b) : ¬ b.before a := by
  rintro (earlier | ⟨same, smaller⟩)
  · rcases order with earlier' | ⟨same', -⟩
    · exact lt_asymm earlier earlier'
    · exact absurd (same' ▸ earlier) (lt_irrefl _)
  · rcases order with earlier' | ⟨-, smaller'⟩
    · exact absurd (same ▸ earlier') (lt_irrefl _)
    · exact absurd (BitVec.lt_trans smaller smaller') (BitVec.lt_irrefl _)

theorem before_total {a b : Cursor} (apart : a.canonicalHash ≠ b.canonicalHash) : a.before b ∨ b.before a := by
  rcases lt_trichotomy a.createdAt b.createdAt with earlier | same | later
  · exact .inl (.inl earlier)
  · rcases Nat.lt_or_gt_of_ne (fun equal => apart (BitVec.eq_of_toNat_eq equal)) with less | greater
    · exact .inl (.inr ⟨same, BitVec.lt_def.mpr less⟩)
    · exact .inr (.inr ⟨same.symm, BitVec.lt_def.mpr greater⟩)
  · exact .inr (.inl later)

theorem before_negTrans {a b c : Cursor} (first : ¬ b.before a) (second : ¬ c.before b) : ¬ c.before a := by
  simp only [before, not_or, not_and, not_lt, BitVec.not_lt] at first second ⊢
  refine ⟨le_trans first.1 second.1, ?_⟩
  intro same
  have sameB : b.createdAt = a.createdAt := le_antisymm (same ▸ second.1) first.1
  exact BitVec.le_trans (first.2 sameB) (second.2 (same.trans sameB.symm))

end Cursor

theorem chainRows_root (db : Db) (source target : Key) :
    (chainRows db source target none).Perm ((db.pairEdges source target).filterMap (chainRow db)) ∧
    (chainRows db source target none).Pairwise fun a b => ¬ b.cursor.before a.cursor := by
  have total : Std.Total fun a b : ChainRow => ¬ b.cursor.before a.cursor := by
    constructor
    intro a b
    by_cases order : b.cursor.before a.cursor
    · exact .inr (Cursor.before_asymm _ _ order)
    · exact .inl order
  have trans : IsTrans ChainRow fun a b => ¬ b.cursor.before a.cursor :=
    ⟨fun a b c first second => Cursor.before_negTrans first second⟩
  have all : ((db.pairEdges source target).filterMap (chainRow db)).filter (fun row =>
      (none : Option Cursor).all fun cursor => cursor.before row.cursor) =
      (db.pairEdges source target).filterMap (chainRow db) := by simp
  rw [chainRows, all]
  exact ⟨perm_insertionSort _ _, pairwise_insertionSort _ _⟩

variable {platform : Platform} {user target : Key} {trail : List Signing} {db : Db}

theorem Stored.chainRow (platform : Platform) {t : Signing} (stored : Stored trail db t) :
    chainRow db (t.homeRow platform) = some (t.chainRow platform) ∨
      chainRow db (t.homeRow platform) = none ∧ ∃ s ∈ trail, s.1.stance = .neutral := by
  obtain ⟨object, found, signature, payload⟩ := stored
  have atRow : db.signedObjects.find? (·.canonicalHash = (t.homeRow platform).canonicalHash) = some object := found
  rw [Prismoire.chainRow, atRow]
  rcases payload with live | ⟨erased, revoked⟩
  · left
    simp only [live, map_some, signature]
    rfl
  · right
    simp only [erased, map_none]
    exact ⟨trivial, revoked⟩

theorem Kept.sent (kept : Kept platform user target trail db) :
    ∀ row ∈ chainRows db user target none, ∃ t ∈ trail, row = t.chainRow platform := by
  intro row mem
  have inJoin := (chainRows_root db user target).1.mem_iff.mp mem
  rw [kept.rows, filterMap_map, mem_filterMap] at inJoin
  obtain ⟨t, inTrail, isRow⟩ := inJoin
  rcases (kept.stored t inTrail).chainRow platform with live | ⟨erased, -⟩
  · exact ⟨t, inTrail, some.inj (isRow.symm.trans live)⟩
  · exact absurd (isRow.symm.trans erased) (some_ne_none row)

theorem Kept.live (kept : Kept platform user target trail db) (calm : ∀ t ∈ trail, t.1.stance ≠ .neutral) :
    (chainRows db user target none).Perm (trail.map (Signing.chainRow platform)) ∧
    (chainRows db user target none).Pairwise fun a b => a.cursor.before b.cursor := by
  obtain ⟨perm, sorted⟩ := chainRows_root db user target
  have whole : (db.pairEdges user target).filterMap (chainRow db) = trail.map (Signing.chainRow platform) := by
    rw [kept.rows, filterMap_map, ← filterMap_eq_map]
    apply filterMap_congr
    intro t inTrail
    rcases (kept.stored t inTrail).chainRow platform with live | ⟨-, s, inTrail', neutral⟩
    · exact live
    · exact absurd neutral (calm s inTrail')
  rw [whole] at perm
  refine ⟨perm, ?_⟩
  have distinct : ((chainRows db user target none).map (·.canonicalHash)).Nodup := by
    rw [(perm.map _).nodup_iff, List.map_map]
    exact kept.distinct
  rw [List.Nodup, pairwise_map] at distinct
  exact (sorted.and distinct).imp fun both => (Cursor.before_total both.2).resolve_right both.1

end Prismoire
