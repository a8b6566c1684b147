import Mathlib.Data.UInt
import Prismoire.AccountErasure
import Prismoire.FrontierCeilings
import Prismoire.LocalRefresh

namespace Prismoire

open Lib List Option Function Db FrontierStore

section Cast

variable {a b : UInt64}

/-- `as i64` makes both negative or neither. -/
def SameSide (a b : UInt64) : Prop :=
  a.toNat < 2 ^ 63 ↔ b.toNat < 2 ^ 63

def columnAge (age : UInt64) : Int :=
  asI64 age.toNat

def wireAge (age : UInt64) : Int :=
  age.toNat

theorem columnAge_lt (same : SameSide a b) : columnAge a < columnAge b ↔ wireAge a < wireAge b := by
  have first := a.toNat_lt
  have second := b.toNat_lt
  unfold SameSide at same
  rw [columnAge, columnAge, wireAge, wireAge, asI64, asI64]
  split <;> split <;> omega

theorem columnAge_lt_apart (apart : ¬ SameSide a b) : columnAge a < columnAge b ↔ wireAge b < wireAge a := by
  have first := a.toNat_lt
  have second := b.toNat_lt
  unfold SameSide at apart
  rw [columnAge, columnAge, wireAge, wireAge, asI64, asI64]
  split <;> split <;> omega

theorem wireAge_ne_of_apart (apart : ¬ SameSide a b) : wireAge a ≠ wireAge b := by
  unfold SameSide at apart
  rw [wireAge, wireAge]
  omega

theorem SameSide.symm (same : SameSide a b) : SameSide b a :=
  Iff.symm same

theorem compare_columnAge (same : SameSide a b) : compare (columnAge a) (columnAge b) = compare (wireAge a) (wireAge b) := by
  rcases lt_trichotomy (wireAge a) (wireAge b) with less | equal | greater
  · rw [compare_lt_iff_lt.mpr less, compare_lt_iff_lt.mpr ((columnAge_lt same).mpr less)]
  · rw [compare_eq_iff_eq.mpr equal, compare_eq_iff_eq]
    have sameValue : a.toNat = b.toNat := Int.ofNat_inj.mp equal
    rw [columnAge, columnAge, sameValue]
  · rw [compare_gt_iff_gt.mpr greater, compare_gt_iff_gt.mpr ((columnAge_lt same.symm).mpr greater)]

theorem compare_columnAge_apart (apart : ¬ SameSide a b) :
    (compare (columnAge a) (columnAge b) = .gt ∧ compare (wireAge a) (wireAge b) = .lt) ∨
      (compare (columnAge a) (columnAge b) = .lt ∧ compare (wireAge a) (wireAge b) = .gt) := by
  rcases lt_or_gt_of_ne (wireAge_ne_of_apart apart) with less | greater
  · have turned := (columnAge_lt_apart fun same => apart same.symm).mpr less
    exact .inl ⟨compare_gt_iff_gt.mpr turned, compare_lt_iff_lt.mpr less⟩
  · have turned := (columnAge_lt_apart apart).mpr greater
    exact .inr ⟨compare_lt_iff_lt.mpr turned, compare_gt_iff_gt.mpr greater⟩

end Cast

section Ranking

structure Candidate where
  truster : Key
  forwardScore : Score
  age : Option UInt64
  deriving DecidableEq

def Candidate.read (how : UInt64 → Int) (candidate : Candidate) : Admission where
  truster := candidate.truster
  forwardScore := candidate.forwardScore
  genesisAt := candidate.age.map how

variable {a b : Candidate}

theorem compareGenesis_read {a b : Option UInt64} (same : ∀ x y, a = some x → b = some y → SameSide x y) :
    compareGenesis (a.map columnAge) (b.map columnAge) = compareGenesis (a.map wireAge) (b.map wireAge) := by
  cases a with
  | none => cases b <;> rfl
  | some x =>
    cases b with
    | none => rfl
    | some y => exact compare_columnAge (same x y rfl rfl).symm

theorem desirability_apart {x y : UInt64} (tied : a.forwardScore = b.forwardScore) (ofA : a.age = some x)
    (ofB : b.age = some y) (apart : ¬ SameSide x y) :
    ((a.read columnAge).desirability (b.read columnAge) = .gt ∧ (a.read wireAge).desirability (b.read wireAge) = .lt) ∨
      ((a.read columnAge).desirability (b.read columnAge) = .lt ∧
        (a.read wireAge).desirability (b.read wireAge) = .gt) := by
  have level : compare a.forwardScore b.forwardScore = .eq := Std.compare_eq_iff_eq.mpr tied
  simp only [Admission.desirability, Candidate.read, level, ofA, ofB, map_some, compareGenesis,
    Ordering.eq_then]
  rcases compare_columnAge_apart fun same => apart same.symm with ⟨column, wire⟩ | ⟨column, wire⟩
  · rw [column, wire]
    exact .inl ⟨rfl, rfl⟩
  · rw [column, wire]
    exact .inr ⟨rfl, rfl⟩

theorem desirability_read :
    (a.read columnAge).desirability (b.read columnAge) = (a.read wireAge).desirability (b.read wireAge) ↔
      (a.forwardScore = b.forwardScore → ∀ x y, a.age = some x → b.age = some y → SameSide x y) := by
  constructor
  · intro agree tied x y ofA ofB
    by_contra apart
    rcases desirability_apart tied ofA ofB apart with ⟨column, wire⟩ | ⟨column, wire⟩
    · rw [column, wire] at agree
      cases agree
    · rw [column, wire] at agree
      cases agree
  · intro same
    simp only [Admission.desirability, Candidate.read]
    by_cases tied : a.forwardScore = b.forwardScore
    · rw [compareGenesis_read (same tied)]
    · cases ranked : compare a.forwardScore b.forwardScore with
      | eq => exact absurd (Std.compare_eq_iff_eq.mp ranked) tied
      | lt => rfl
      | gt => rfl

structure Twins (ages : Set UInt64) (column wire : AdmissionCap) (candidates : List Candidate) : Prop where
  cap : column.cap = wire.cap
  inColumn : column.heap = candidates.map (Candidate.read columnAge)
  onWire : wire.heap = candidates.map (Candidate.read wireAge)
  within : ∀ candidate ∈ candidates, ∀ age, candidate.age = some age → age ∈ ages

variable {ages : Set UInt64} {column wire : AdmissionCap} {candidates : List Candidate}

theorem columnAge_injective {x y : UInt64} (equal : columnAge x = columnAge y) : x = y := by
  rw [← asU64_asI64 x, ← asU64_asI64 y]
  exact congrArg asU64 equal

theorem wireAge_injective {x y : UInt64} (equal : wireAge x = wireAge y) : x = y :=
  UInt64.toNat_inj.mp (Int.ofNat_inj.mp equal)

theorem read_injective {how : UInt64 → Int} (injective : Injective how) :
    Injective (Candidate.read how) := by
  rintro ⟨truster, score, age⟩ ⟨truster', score', age'⟩ equal
  simp only [Candidate.read, Admission.mk.injEq] at equal
  obtain ⟨rfl, rfl, ages⟩ := equal
  rw [map_injective injective ages]

def Candidate.worst (candidates : List Candidate) : Option Candidate :=
  firstBy (fun a b => (a.read wireAge).desirability (b.read wireAge) == .lt) candidates

variable (twins : Twins ages column wire candidates) (oneSide : ∀ x ∈ ages, ∀ y ∈ ages, SameSide x y)
include twins oneSide

theorem Twins.worst : column.worstAdmitted = (Candidate.worst candidates).map (Candidate.read columnAge) ∧
      wire.worstAdmitted = (Candidate.worst candidates).map (Candidate.read wireAge) := by
  rw [AdmissionCap.worstAdmitted, AdmissionCap.worstAdmitted, twins.inColumn, twins.onWire]
  constructor
  · refine firstBy_map fun a inA b inB => ?_
    have agree := (@desirability_read a b).mpr fun _ x y ofA ofB =>
      oneSide x (twins.within a inA x ofA) y (twins.within b inB y ofB)
    rw [agree]
  · exact firstBy_map fun _ _ _ _ => rfl

theorem Twins.tryAdmit {offer : Candidate} (offered : ∀ age, offer.age = some age → age ∈ ages) :
    ∃ after, Twins ages (column.tryAdmit (offer.read columnAge)).1 (wire.tryAdmit (offer.read wireAge)).1 after := by
  obtain ⟨columnWorst, wireWorst⟩ := twins.worst oneSide
  have pushed : ∀ rest : List Candidate, (∀ candidate ∈ rest, candidate ∈ candidates) →
      Twins ages { cap := wire.cap, heap := (offer :: rest).map (Candidate.read columnAge) }
        { wire with heap := (offer :: rest).map (Candidate.read wireAge) } (offer :: rest) := by
    intro rest inside
    refine ⟨rfl, rfl, rfl, ?_⟩
    intro candidate mem age isAge
    rcases mem_cons.mp mem with rfl | old
    · exact offered age isAge
    · exact twins.within candidate (inside candidate old) age isAge
  rw [AdmissionCap.tryAdmit, AdmissionCap.tryAdmit, columnWorst, wireWorst, twins.cap, twins.inColumn, twins.onWire,
    length_map, length_map]
  by_cases closed : wire.cap = 0
  · rw [if_pos closed, if_pos closed]
    exact ⟨candidates, twins⟩
  · rw [if_neg closed, if_neg closed]
    by_cases room : candidates.length < wire.cap
    · rw [if_pos room, if_pos room]
      exact ⟨offer :: candidates, pushed candidates fun _ mem => mem⟩
    · rw [if_neg room, if_neg room]
      cases isWorst : Candidate.worst candidates with
      | none => exact ⟨candidates, twins⟩
      | some worst =>
        have inside := mem_of_firstBy isWorst
        have agree := (@desirability_read offer worst).mpr fun _ x y ofOffer ofWorst =>
          oneSide x (offered x ofOffer) y (twins.within worst inside y ofWorst)
        simp only [map_some, agree]
        by_cases better : (offer.read wireAge).desirability (worst.read wireAge) = .gt
        · rw [if_pos better, if_pos better]
          refine ⟨offer :: candidates.erase worst, ?_⟩
          have erased := pushed (candidates.erase worst) fun _ mem => mem_of_mem_erase mem
          rw [map_cons, map_cons, map_erase (read_injective fun _ _ => columnAge_injective),
            map_erase (read_injective fun _ _ => wireAge_injective)] at erased
          exact erased
        · rw [if_neg better, if_neg better]
          exact ⟨candidates, twins⟩

theorem Twins.ceiling : ∃ cutoff : Option UInt64, (∀ age, cutoff = some age → age ∈ ages) ∧
      deriveAgeCeiling column = cutoff.map columnAge ∧ deriveAgeCeiling wire = cutoff.map wireAge := by
  obtain ⟨columnWorst, wireWorst⟩ := twins.worst oneSide
  rw [deriveAgeCeiling, deriveAgeCeiling, AdmissionCap.isFull, AdmissionCap.isFull, columnWorst, wireWorst, twins.cap,
    twins.inColumn, twins.onWire, length_map, length_map]
  split
  · exact ⟨none, nofun, rfl, rfl⟩
  · cases isWorst : Candidate.worst candidates with
    | none => exact ⟨none, nofun, rfl, rfl⟩
    | some worst => exact ⟨worst.age, twins.within worst (mem_of_firstBy isWorst), rfl, rfl⟩

end Ranking

section Store

/-- An edge of this source goes out unless it is known to be younger than the cutoff. -/
def ceilingAdmits (cutoff : Int) (sourceGenesisAt : Option Int) : Bool :=
  match sourceGenesisAt with
  | some genesisAt => genesisAt ≤ cutoff
  | none => true

/-- The tables that ages and cutoffs are read from. -/
structure AgeStore where
  db : Db := {}
  frontiers : Key → FrontierStore := fun _ => {}

namespace AgeStore

def peerCeilingAdmitsSource (s : AgeStore) (peer root source : Key) : Bool :=
  match (s.frontiers peer).ceilings.get? root with
  | none => true
  | some cutoff => ceilingAdmits cutoff (s.db.loadGenesisAt source)

def admission (s : AgeStore) (key : Key) (forwardScore : Score) : Admission :=
  ⟨key, forwardScore, s.db.loadGenesisAt key⟩

end AgeStore

/-- What writes an age or a cutoff, or takes one away; a handler of a frontier message makes its next statement. -/
inductive AgeEvent
  | birth (birth : LocalUserBirth)
  | move (wireBytes : Bytes) (nowMs : Nat)
  | eraseAccount (user : Key)
  | frontier (peer : Key) (coverage : Coverage) (stage : ApplyStage)
  | removePeer (peer : Key)

variable (state : AppState)

def AgeStore.step (s : AgeStore) : AgeEvent → AgeStore
  | .birth birth =>
    match completeLocalUserBirth state s.db birth with
    | .ok db => { s with db }
    | .error _ => s
  | .move wireBytes nowMs => { s with db := deliverMove state s.db wireBytes nowMs }
  | .eraseAccount user => { s with db := dropAccountRows s.db user }
  | .frontier peer coverage stage => { s with
      frontiers := update s.frontiers peer ((s.frontiers peer).advance coverage stage).1 }
  | .removePeer peer => { s with frontiers := update s.frontiers peer {} }

/-- What the instance has accepted, as it came over the wire. -/
structure WireAges where
  genesis : Key → Option UInt64 := fun _ => none
  cutoffs : Key → Key → Option UInt64 := fun _ _ => none

namespace WireAges

variable (w : WireAges)

def anchor (key : Key) (age : UInt64) : WireAges :=
  { w with genesis := update w.genesis key (some ((w.genesis key).getD age)) }

def admission (key : Key) (forwardScore : Score) : Admission :=
  ⟨key, forwardScore, (w.genesis key).map wireAge⟩

def peerCeilingAdmitsSource (peer root source : Key) : Bool :=
  match w.cutoffs peer root with
  | none => true
  | some cutoff => ceilingAdmits (wireAge cutoff) ((w.genesis source).map wireAge)

end WireAges

def acceptedMove (db : Db) (wireBytes : Bytes) (nowMs : Nat) : Option Move :=
  match applyOneMove state db wireBytes nowMs with
  | .ok (.applied, _) | .ok (.superseded, _) =>
    (state.platform.decodeSignedObject wireBytes).bind fun object =>
      match state.platform.parse object.1 with
      | some (.move m) => some m
      | _ => none
  | _ => none

def WireAges.step (s : AgeStore) (w : WireAges) : AgeEvent → WireAges
  | .birth birth =>
    match completeLocalUserBirth state s.db birth with
    | .ok _ => w.anchor birth.publicKey (UInt64.ofNat birth.createdAtMs)
    | .error _ => w
  | .move wireBytes nowMs =>
    match acceptedMove state s.db wireBytes nowMs with
    | some m => w.anchor m.key (UInt64.ofNat m.genesisAt)
    | none => w
  | .eraseAccount user =>
    if s.db.hasUser user then { w with genesis := update w.genesis user none } else w
  | .frontier peer _ (.replacing _ inbound) =>
    match (s.frontiers peer).replacePeerAgeCeilings inbound.ageCeilings with
    | some _ => { w with cutoffs := update w.cutoffs peer inbound.ageCeilings.entries.get? }
    | none => w
  | .frontier peer _ (.merging delta _) =>
    match (s.frontiers peer).mergePeerAgeCeilings delta.ageCeilings with
    | some _ => { w with
        cutoffs := update w.cutoffs peer fun root =>
          (delta.ageCeilings.entries.get? root).or (w.cutoffs peer root) }
    | none => w
  | .frontier _ _ _ => w
  | .removePeer peer => { w with cutoffs := update w.cutoffs peer fun _ => none }

def ageStep (both : AgeStore × WireAges) (event : AgeEvent) : AgeStore × WireAges :=
  (both.1.step state event, both.2.step state both.1 event)

/-- The store has every accepted value in its column. -/
structure AgeStore.Has (s : AgeStore) (w : WireAges) : Prop where
  genesis : ∀ key, s.db.loadGenesisAt key = (w.genesis key).map columnAge
  cutoffs : ∀ peer root, (s.frontiers peer).ceilings.get? root = (w.cutoffs peer root).map columnAge

variable {state} {s : AgeStore} {w : WireAges} {db after : Db}

theorem columnAge_ofNat (age : Nat) : columnAge (UInt64.ofNat age) = asI64 age := by
  rw [columnAge, UInt64.toNat_ofNat', asI64, asI64, Nat.mod_mod]

theorem loadGenesisAt_insertUserGenesis (row : UserGenesisRow) (key : Key) :
    (insertUserGenesis db row).loadGenesisAt key =
      if key = row.userKey then some ((db.loadGenesisAt key).getD row.genesisAt) else db.loadGenesisAt key := by
  unfold insertUserGenesis loadGenesisAt
  dsimp only
  by_cases known : db.userGenesis.any (·.userKey = row.userKey) = true
  · rw [if_pos known]
    split
    · rename_i same
      subst same
      obtain ⟨old, found⟩ := find?_isSome.mpr (List.any_eq_true.mp known) |> isSome_iff_exists.mp
      rw [found]
      rfl
    · rfl
  · rw [if_neg known, find?_append]
    split
    · rename_i same
      subst same
      have none_ : db.userGenesis.find? (fun old => old.userKey = row.userKey) = none := by
        rw [find?_eq_none]
        intro old mem named
        exact known (List.any_eq_true.mpr ⟨old, mem, named⟩)
      simp [none_]
    · rename_i apart
      simp [Ne.symm apart]

theorem AgeStore.Has.anchor (has : s.Has w) {row : UserGenesisRow} {age : Nat} (stored : row.genesisAt = asI64 age)
    (written : after.userGenesis = (insertUserGenesis s.db row).userGenesis) :
    ({ s with db := after } : AgeStore).Has (w.anchor row.userKey (UInt64.ofNat age)) := by
  refine ⟨fun key => ?_, has.cutoffs⟩
  have reads : after.loadGenesisAt key = (insertUserGenesis s.db row).loadGenesisAt key := by
    rw [loadGenesisAt, written, loadGenesisAt]
  dsimp only [WireAges.anchor]
  rw [reads, loadGenesisAt_insertUserGenesis, has.genesis]
  by_cases same : key = row.userKey
  · subst same
    rw [if_pos rfl, update_self, stored, ← columnAge_ofNat]
    cases w.genesis row.userKey <;> rfl
  · rw [if_neg same, update_of_ne same]

theorem completeLocalUserBirth_genesis {birth : LocalUserBirth} (run : completeLocalUserBirth state db birth = .ok after) :
    after.userGenesis = (insertUserGenesis db ⟨birth.publicKey, asI64 birth.createdAtMs, state.instanceKey,
      birth.genesisAttestation.sig⟩).userGenesis := by
  simp only [completeLocalUserBirth, require_bind_ok] at run
  obtain ⟨-, -, run⟩ := run
  cases run
  rfl

theorem deliverMove_genesis (wireBytes : Bytes) (nowMs : Nat) :
    (acceptedMove state db wireBytes nowMs = none ∧ (deliverMove state db wireBytes nowMs).userGenesis = db.userGenesis) ∨
      ∃ m, acceptedMove state db wireBytes nowMs = some m ∧
        (deliverMove state db wireBytes nowMs).userGenesis = (insertUserGenesis db (moveGenesis m)).userGenesis := by
  unfold acceptedMove deliverMove
  cases run : applyOneMove state db wireBytes nowMs with
  | error => exact .inl ⟨rfl, rfl⟩
  | ok answer =>
    obtain ⟨status, after⟩ := answer
    rcases applyOneMove_ok run with ⟨rfl, notApplied, notSuperseded⟩ |
      ⟨payload, signature, m, decodes, parses, -, -, -, single, committed⟩
    · refine .inl ⟨?_, rfl⟩
      cases status <;> first | rfl | exact absurd rfl notApplied | exact absurd rfl notSuperseded
    · right
      obtain ⟨rfl, rfl⟩ := commitMove_moved single committed
      refine ⟨m, ?_, rfl⟩
      rw [decodes]
      split <;> simp_all

variable {store : FrontierStore} {peer : Key}

theorem advance_keepsCeilings {coverage : Coverage} {stage : ApplyStage}
    (replacing : ∀ caller inbound, stage ≠ .replacing caller inbound)
    (merging : ∀ delta cursor, stage ≠ .merging delta cursor) :
    (store.advance coverage stage).1.ceilings = store.ceilings := by
  cases stage with
  | replacing caller inbound => exact absurd rfl (replacing caller inbound)
  | merging delta cursor => exact absurd rfl (merging delta cursor)
  | upserting caller inbound prior =>
    simp only [advance, upsert]
    repeat' split
    all_goals rfl
  | rereading inbound =>
    simp only [advance]
    split <;> rfl
  | updating write =>
    simp only [advance, FrontierStore.update]
    repeat' split
    all_goals rfl
  | announced | pulled | notModified | delivered | answered => rfl

theorem AgeStore.Has.frontier (has : s.Has w) {cutoffs : Key → Option UInt64}
    (written : ∀ root, store.ceilings.get? root = (cutoffs root).map columnAge) :
    ({ s with frontiers := update s.frontiers peer store } : AgeStore).Has
      { w with cutoffs := update w.cutoffs peer cutoffs } := by
  refine ⟨has.genesis, fun other root => ?_⟩
  dsimp only
  by_cases same : other = peer
  · subst same
    rw [update_self, update_self]
    exact written root
  · rw [update_of_ne same, update_of_ne same]
    exact has.cutoffs other root

theorem AgeStore.Has.unchanged (has : s.Has w) (same : store.ceilings = (s.frontiers peer).ceilings) :
    ({ s with frontiers := update s.frontiers peer store } : AgeStore).Has w := by
  have written : ∀ root, store.ceilings.get? root = (w.cutoffs peer root).map columnAge := by
    intro root
    rw [same]
    exact has.cutoffs peer root
  have kept : ({ s with frontiers := update s.frontiers peer store } : AgeStore).Has
      { w with cutoffs := update w.cutoffs peer (w.cutoffs peer) } := has.frontier written
  rwa [update_eq_self] at kept

theorem AgeStore.Has.step (has : s.Has w) (event : AgeEvent) : (s.step state event).Has (w.step state s event) := by
  cases event with
  | birth birth =>
    simp only [AgeStore.step, WireAges.step]
    cases run : completeLocalUserBirth state s.db birth with
    | error => exact has
    | ok after => exact has.anchor rfl (completeLocalUserBirth_genesis run)
  | move wireBytes nowMs =>
    simp only [AgeStore.step, WireAges.step]
    rcases @deliverMove_genesis state s.db wireBytes nowMs with ⟨refused, same⟩ | ⟨m, accepted, written⟩
    · rw [refused]
      refine ⟨fun key => ?_, has.cutoffs⟩
      rw [loadGenesisAt, same]
      exact has.genesis key
    · rw [accepted]
      have stored : (moveGenesis m).genesisAt = asI64 m.genesisAt := rfl
      exact has.anchor stored written
  | eraseAccount user =>
    simp only [AgeStore.step, WireAges.step]
    split
    · rename_i known
      refine ⟨fun key => ?_, has.cutoffs⟩
      simp only [loadGenesisAt, dropAccountRows, known, if_true, find?_filter]
      by_cases same : key = user
      · subst same
        rw [update_self, find?_eq_none.mpr]
        · rfl
        · simp
      · rw [update_of_ne same, ← has.genesis key, loadGenesisAt]
        congr 2
        funext row
        by_cases own : row.userKey = key
        · simp [own, same]
        · simp [own]
    · rename_i unknown
      refine ⟨fun key => ?_, has.cutoffs⟩
      simp only [loadGenesisAt, dropAccountRows, unknown]
      exact has.genesis key
  | frontier peer coverage stage =>
    cases stage with
    | replacing caller inbound =>
      simp only [AgeStore.step, WireAges.step, advance]
      cases ran : (s.frontiers peer).replacePeerAgeCeilings inbound.ageCeilings with
      | none => exact has.unchanged rfl
      | some store =>
        refine has.frontier fun root => ?_
        unfold replacePeerAgeCeilings writeCeilings at ran
        split at ran
        · cases ran
        · cases ran
          exact (get?_foldl_upsertCeiling inbound.ageCeilings.keyed).trans or_none
    | merging delta cursor =>
      simp only [AgeStore.step, WireAges.step, advance]
      cases ran : (s.frontiers peer).mergePeerAgeCeilings delta.ageCeilings with
      | none => exact has.unchanged rfl
      | some store =>
        refine has.frontier fun root => ?_
        unfold mergePeerAgeCeilings writeCeilings at ran
        split at ran
        · cases ran
        · cases ran
          rw [map_or, ← has.cutoffs peer root]
          exact get?_foldl_upsertCeiling delta.ageCeilings.keyed
    | announced | pulled | notModified | upserting | rereading | delivered | updating | answered =>
      exact has.unchanged (advance_keepsCeilings (by simp) (by simp))
  | removePeer peer => exact has.frontier fun root => rfl

theorem has_run (events : List AgeEvent) :
    (events.foldl (ageStep state) ({}, {})).1.Has (events.foldl (ageStep state) ({}, {})).2 := by
  have general : ∀ (events : List AgeEvent) (both : AgeStore × WireAges), both.1.Has both.2 →
      (events.foldl (ageStep state) both).1.Has (events.foldl (ageStep state) both).2 := by
    intro events
    induction events with
    | nil => exact fun both has => has
    | cons event events ih => exact fun both has => ih _ (has.step event)
  exact general events _ ⟨fun _ => rfl, fun _ _ => rfl⟩

def offered (admission : Key → Score → Admission) (capN : Nat) (offers : List (Key × Score)) : AdmissionCap :=
  offers.foldl (fun set offer => (set.tryAdmit (admission offer.1 offer.2)).1) { cap := capN }

def announced (root : Key) (ceiling : Option Int) : Option UInt64 :=
  ceiling.bind fun cutoff => (LocalTables.loadCutoff (root, cutoff)).map Prod.snd

def WireAges.candidate (w : WireAges) (key : Key) (forwardScore : Score) : Candidate :=
  ⟨key, forwardScore, w.genesis key⟩

theorem AgeStore.Has.admission (has : s.Has w) (key : Key) (forwardScore : Score) :
    s.admission key forwardScore = (w.candidate key forwardScore).read columnAge := by
  rw [AgeStore.admission, has.genesis]
  rfl

theorem AgeStore.Has.desirability (has : s.Has w) (a b : Key) (scoreA scoreB : Score) :
    (s.admission a scoreA).desirability (s.admission b scoreB) =
        (w.admission a scoreA).desirability (w.admission b scoreB) ↔
      (scoreA = scoreB → ∀ x y, w.genesis a = some x → w.genesis b = some y → SameSide x y) := by
  rw [has.admission, has.admission]
  exact desirability_read

theorem ceilingAdmits_read {cutoff age : UInt64} :
    ceilingAdmits (columnAge cutoff) (some (columnAge age)) = ceilingAdmits (wireAge cutoff) (some (wireAge age)) ↔
      SameSide cutoff age := by
  simp only [ceilingAdmits, decide_eq_decide, ← not_lt]
  constructor
  · intro agree
    by_contra apart
    have ne := wireAge_ne_of_apart apart
    rw [not_iff_not, columnAge_lt_apart apart] at agree
    omega
  · intro same
    rw [columnAge_lt same]

theorem AgeStore.Has.ceilingAdmits (has : s.Has w) (peer root source : Key) :
    s.peerCeilingAdmitsSource peer root source = w.peerCeilingAdmitsSource peer root source ↔
      ∀ cutoff age, w.cutoffs peer root = some cutoff → w.genesis source = some age → SameSide cutoff age := by
  rw [AgeStore.peerCeilingAdmitsSource, WireAges.peerCeilingAdmitsSource, has.cutoffs, has.genesis]
  cases w.cutoffs peer root with
  | none => exact iff_of_true rfl nofun
  | some cutoff =>
    cases w.genesis source with
    | none => exact iff_of_true rfl nofun
    | some age =>
      refine ceilingAdmits_read.trans ⟨?_, fun same => same cutoff age rfl rfl⟩
      intro same cutoff' age' isCutoff isAge
      cases isCutoff
      cases isAge
      exact same

def WireAges.agesOf (w : WireAges) (keys : List Key) : Set UInt64 :=
  fun age => ∃ key ∈ keys, w.genesis key = some age

theorem AgeStore.Has.twins (has : s.Has w) {keys : List Key}
    (oneSide : ∀ x ∈ w.agesOf keys, ∀ y ∈ w.agesOf keys, SameSide x y) (capN : Nat) {offers : List (Key × Score)}
    (inside : ∀ offer ∈ offers, offer.1 ∈ keys) :
    ∃ candidates, Twins (w.agesOf keys) (offered s.admission capN offers) (offered w.admission capN offers)
      candidates := by
  have general : ∀ (offers : List (Key × Score)) (column wire : AdmissionCap) (candidates : List Candidate),
      (∀ offer ∈ offers, offer.1 ∈ keys) → Twins (w.agesOf keys) column wire candidates →
      ∃ after, Twins (w.agesOf keys)
        (offers.foldl (fun set offer => (set.tryAdmit (s.admission offer.1 offer.2)).1) column)
        (offers.foldl (fun set offer => (set.tryAdmit (w.admission offer.1 offer.2)).1) wire) after := by
    intro offers
    induction offers with
    | nil => exact fun _ _ candidates _ twins => ⟨candidates, twins⟩
    | cons offer offers ih =>
      intro column wire candidates inside twins
      have aged : ∀ age, (w.candidate offer.1 offer.2).age = some age → age ∈ w.agesOf keys :=
        fun age isAge => ⟨offer.1, inside offer mem_cons_self, isAge⟩
      obtain ⟨next, stepped⟩ := twins.tryAdmit oneSide aged
      rw [← has.admission] at stepped
      exact ih _ _ next (fun later mem => inside later (mem_cons_of_mem _ mem)) stepped
  exact general offers _ _ [] inside ⟨rfl, rfl, rfl, nofun⟩

theorem deriveAgeCeiling_two (admission : Key → Score → Admission) (a b : Key) :
    deriveAgeCeiling (offered admission 1 [(a, 0), (b, 0)]) =
      if (admission b 0).desirability (admission a 0) = .gt then (admission b 0).genesisAt
      else (admission a 0).genesisAt := by
  by_cases ranked : (admission b 0).desirability (admission a 0) = .gt
  · simp [offered, AdmissionCap.tryAdmit, AdmissionCap.worstAdmitted, firstBy, better, deriveAgeCeiling,
      AdmissionCap.isFull, ranked]
  · simp [offered, AdmissionCap.tryAdmit, AdmissionCap.worstAdmitted, firstBy, better, deriveAgeCeiling,
      AdmissionCap.isFull, ranked]

theorem deriveAgeCeiling_one (admission : Key → Score → Admission) (a : Key) :
    deriveAgeCeiling (offered admission 1 [(a, 0)]) = (admission a 0).genesisAt := by
  simp [offered, AdmissionCap.tryAdmit, AdmissionCap.worstAdmitted, firstBy, better, deriveAgeCeiling,
    AdmissionCap.isFull]

theorem asU64_wireAge (age : UInt64) : asU64 (wireAge age) = age := by
  have bound := age.toNat_lt
  apply UInt64.toNat_inj.mp
  rw [asU64, UInt64.toNat_ofNat', wireAge]
  omega

theorem WireAges.admission_eq (key : Key) (forwardScore : Score) :
    w.admission key forwardScore = (w.candidate key forwardScore).read wireAge := rfl

theorem AgeStore.Has.ceiling (has : s.Has w) (keys : List Key) : (∀ capN offers, (∀ offer ∈ offers, offer.1 ∈ keys) →
      (deriveAgeCeiling (offered s.admission capN offers)).map asU64 =
        (deriveAgeCeiling (offered w.admission capN offers)).map asU64) ↔
      ∀ x ∈ w.agesOf keys, ∀ y ∈ w.agesOf keys, SameSide x y := by
  constructor
  · rintro agree x ⟨a, inKeys, ofA⟩ y ⟨b, inKeys', ofB⟩
    by_contra apart
    have distinct : x ≠ y := by
      rintro rfl
      exact apart Iff.rfl
    have both := agree 1 [(a, 0), (b, 0)] (by simp [inKeys, inKeys'])
    rw [deriveAgeCeiling_two, deriveAgeCeiling_two, has.admission, has.admission, WireAges.admission_eq,
      WireAges.admission_eq] at both
    have ages : ∀ how : UInt64 → Int, ((w.candidate a 0).read how).genesisAt = some (how x) ∧
        ((w.candidate b 0).read how).genesisAt = some (how y) := by
      intro how
      simp [Candidate.read, WireAges.candidate, ofA, ofB]
    rw [(ages columnAge).1, (ages columnAge).2, (ages wireAge).1, (ages wireAge).2] at both
    -- the one set keeps the younger of the two, the other the older
    rcases @desirability_apart (w.candidate b 0) (w.candidate a 0) y x rfl ofB ofA fun same => apart same.symm with
      ⟨column, wire⟩ | ⟨column, wire⟩
    · rw [column, wire, if_pos rfl, if_neg (by decide)] at both
      simp only [map_some, asU64_wireAge, some.injEq] at both
      exact distinct ((asU64_asI64 y).symm.trans both).symm
    · rw [column, wire, if_neg (by decide), if_pos rfl] at both
      simp only [map_some, asU64_wireAge, some.injEq] at both
      exact distinct ((asU64_asI64 x).symm.trans both)
  · intro oneSide capN offers inside
    obtain ⟨candidates, twins⟩ := has.twins oneSide capN inside
    obtain ⟨cutoff, -, column, wire⟩ := twins.ceiling oneSide
    rw [column, wire]
    cases cutoff with
    | none => rfl
    | some age => exact congrArg some ((asU64_asI64 age).trans (asU64_wireAge age).symm)

theorem announced_columnAge (root : Key) (age : UInt64) :
    announced root (some (columnAge age)) = if age.toNat < 2 ^ 63 then some age else none := by
  rw [announced, bind_some, LocalTables.loadCutoff, columnAge]
  by_cases early : age.toNat < 2 ^ 63
  · rw [if_pos early, if_pos (asI64_nonneg.mpr early), asU64_asI64]
    rfl
  · rw [if_neg early, if_neg fun signed => early (asI64_nonneg.mp signed)]
    rfl

theorem AgeStore.Has.announced (has : s.Has w) (root : Key) (keys : List Key) :
    (∀ capN offers, (∀ offer ∈ offers, offer.1 ∈ keys) →
      announced root (deriveAgeCeiling (offered s.admission capN offers)) =
        (deriveAgeCeiling (offered w.admission capN offers)).map asU64) ↔
      ∀ age ∈ w.agesOf keys, age.toNat < 2 ^ 63 := by
  constructor
  · rintro agree age ⟨key, inKeys, ofKey⟩
    have alone := agree 1 [(key, 0)] (by simp [inKeys])
    rw [deriveAgeCeiling_one, deriveAgeCeiling_one, has.admission, WireAges.admission_eq] at alone
    simp only [Candidate.read, WireAges.candidate, ofKey, map_some, announced_columnAge] at alone
    by_contra late
    rw [if_neg late] at alone
    cases alone
  · intro early capN offers inside
    have oneSide : ∀ x ∈ w.agesOf keys, ∀ y ∈ w.agesOf keys, SameSide x y :=
      fun x inX y inY => iff_of_true (early x inX) (early y inY)
    obtain ⟨candidates, twins⟩ := has.twins oneSide capN inside
    obtain ⟨cutoff, inAges, column, wire⟩ := twins.ceiling oneSide
    rw [column, wire]
    cases cutoff with
    | none => rfl
    | some age =>
      rw [map_some, announced_columnAge, if_pos (early age (inAges age rfl)), map_some, map_some,
        asU64_wireAge]

end Store

/-- After any run, comparing two columns gives the answer of the wire exactly when both values are below the middle of
the range or both are not; and so for the ceilings that are derived from them, which are announced as they are exactly
when no age is past the middle. -/
theorem ages_keep_order_iff (state : AppState) (events : List AgeEvent) :
    let s := (events.foldl (ageStep state) ({}, {})).1
    let w := (events.foldl (ageStep state) ({}, {})).2
    (∀ a b scoreA scoreB, (s.admission a scoreA).desirability (s.admission b scoreB) =
        (w.admission a scoreA).desirability (w.admission b scoreB) ↔
      (scoreA = scoreB → ∀ x y, w.genesis a = some x → w.genesis b = some y → SameSide x y)) ∧
    (∀ peer root source, s.peerCeilingAdmitsSource peer root source = w.peerCeilingAdmitsSource peer root source ↔
      ∀ cutoff age, w.cutoffs peer root = some cutoff → w.genesis source = some age → SameSide cutoff age) ∧
    (∀ keys, (∀ capN offers, (∀ offer ∈ offers, offer.1 ∈ keys) →
        (deriveAgeCeiling (offered s.admission capN offers)).map asU64 =
          (deriveAgeCeiling (offered w.admission capN offers)).map asU64) ↔
      ∀ x ∈ w.agesOf keys, ∀ y ∈ w.agesOf keys, SameSide x y) ∧
    ∀ root keys, (∀ capN offers, (∀ offer ∈ offers, offer.1 ∈ keys) →
        announced root (deriveAgeCeiling (offered s.admission capN offers)) =
          (deriveAgeCeiling (offered w.admission capN offers)).map asU64) ↔
      ∀ age ∈ w.agesOf keys, age.toNat < 2 ^ 63 := by
  intro s w
  have has : s.Has w := has_run events
  exact ⟨has.desirability, has.ceilingAdmits, has.ceiling, has.announced⟩

def bornAt (key : Key) (age : Nat) : Move :=
  ⟨key, none, none, 9, "there", 5000, age, ⟨key, age, 9, []⟩, none⟩

def ageState : AppState :=
  AppState.ofTable [.move (bornAt 1 (2 ^ 63)), .move (bornAt 2 1000)]

/-- A peer's snapshot with one ceiling. -/
def cutoffAnnounce : FrontierAnnounce :=
  { (plainFrontier 1).announce .filtered with
    version := 1
    ageCeilings := { entries := [(3, 2000)] } }

def farFutureEvents : List AgeEvent :=
  [.move [0] 5000, .move [1] 5000, .frontier 8 .noUsers (.upserting .announce cutoffAnnounce .filtered),
    .frontier 8 .noUsers (.replacing .announce cutoffAnnounce)]

/-- A key born in the far future ranks as the oldest, passes every cutoff and takes the place of an old one. -/
theorem far_future_ranks_oldest :
    let s := (farFutureEvents.foldl (ageStep ageState) ({}, {})).1
    let w := (farFutureEvents.foldl (ageStep ageState) ({}, {})).2
    w.genesis 1 = some (2 ^ 63) ∧ w.genesis 2 = some 1000 ∧ w.cutoffs 8 3 = some 2000 ∧
      (s.admission 1 0).desirability (s.admission 2 0) = .gt ∧
      (w.admission 1 0).desirability (w.admission 2 0) = .lt ∧
      s.peerCeilingAdmitsSource 8 3 1 = true ∧ w.peerCeilingAdmitsSource 8 3 1 = false ∧
      (deriveAgeCeiling (offered s.admission 1 [(2, 0), (1, 0)])).map asU64 = some (2 ^ 63) ∧
      (deriveAgeCeiling (offered w.admission 1 [(2, 0), (1, 0)])).map asU64 = some 1000 := by
  decide +kernel

end Prismoire
