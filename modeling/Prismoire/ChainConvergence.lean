import Mathlib.Data.Nat.Find
import Prismoire.EdgeChains

namespace Prismoire

open Lib List Db

namespace EdgeChain

variable {platform : Platform} {source target : Key} {chain : EdgeChain platform source target}

section Positions

variable {early : Nat → Prop} {l : Ledger platform}

theorem Holds.deliver_waiting (holds : chain.Holds early l) (waiting : l.Waiting) {i : Nat}
    (bound : i < chain.edges.length) : (l.deliver chain.edges[i]).Waiting := by
  unfold Ledger.deliver
  split
  · exact waiting
  · rename_i absent
    split
    · split
      · exact Ledger.land_waiting waiting
      · exact waiting
    · split
      · split
        · exact waiting
        · exact Ledger.land_waiting waiting
      · rename_i orphan
        split
        · exact waiting
        · refine forall_mem_concat.mpr ⟨waiting, ?_⟩
          have beyond : l.active.length ≤ i := by
            by_contra below
            exact absent ((holds.inForce bound).mpr (by omega))
          intro atTip
          exact orphan ((holds.grounded bound beyond).mpr ((holds.atTip bound beyond).mp atTip))

def ledgerAt (chain : EdgeChain platform source target) (l : Ledger platform)
    (late : List (Fin chain.edges.length)) : Nat → Ledger platform
  | 0 => l
  | t + 1 =>
    match late[t]? with
    | some ⟨i, _⟩ => (chain.ledgerAt l late t).deliver chain.edges[i]
    | none => chain.ledgerAt l late t

def landedAt (chain : EdgeChain platform source target) (l : Ledger platform)
    (late : List (Fin chain.edges.length)) (t : Nat) : Nat :=
  (chain.ledgerAt l late t).active.length

theorem foldl_deliver {late : List (Fin chain.edges.length)} :
    late.foldl (fun l i => l.deliver (chain.edges.get i)) l = chain.ledgerAt l late late.length := by
  have prefixes : ∀ t ≤ late.length,
      (late.take t).foldl (fun l i => l.deliver (chain.edges.get i)) l = chain.ledgerAt l late t := by
    intro t
    induction t with
    | zero => intro _; rfl
    | succ t ih =>
      intro bound
      have inside : t < late.length := by omega
      rw [take_succ_eq_append_getElem inside, foldl_append, ih (by omega)]
      simp [ledgerAt, getElem?_eq_getElem inside]
  have whole := prefixes late.length le_rfl
  rwa [take_length] at whole

variable {late : List (Fin chain.edges.length)}

section

variable (holds : chain.Holds early l) (waiting : l.Waiting)
include holds waiting

theorem Holds.ledgerAt (late : List (Fin chain.edges.length)) (t : Nat) :
    chain.Holds early (chain.ledgerAt l late t) ∧ (chain.ledgerAt l late t).Waiting := by
  induction t with
  | zero => exact ⟨holds, waiting⟩
  | succ t ih =>
    simp only [EdgeChain.ledgerAt]
    cases late[t]? with
    | none => exact ih
    | some i => exact ⟨(ih.1.deliver ih.2 i.isLt).holds, ih.1.deliver_waiting ih.2 i.isLt⟩

variable {i : Fin chain.edges.length}

theorem Holds.advanceAt {t : Nat} (delivered : late[t]? = some i) :
    chain.Advance early (chain.ledgerAt l late t) (chain.ledgerAt l late (t + 1)) i i.isLt := by
  obtain ⟨holdsAt, waitingAt⟩ := holds.ledgerAt waiting late t
  simp only [EdgeChain.ledgerAt, delivered]
  exact holdsAt.deliver waitingAt i.isLt

theorem Holds.landed_mono (late : List (Fin chain.edges.length)) {s t : Nat} (order : s ≤ t) :
    chain.landedAt l late s ≤ chain.landedAt l late t := by
  induction t with
  | zero => exact Nat.le_of_eq (by rw [Nat.le_zero.mp order])
  | succ t ih =>
    rcases Nat.lt_or_ge s (t + 1) with earlier | same
    · refine Nat.le_trans (ih (by omega)) ?_
      cases delivered : late[t]? with
      | none => simp only [landedAt, EdgeChain.ledgerAt, delivered]; exact le_rfl
      | some i => exact (holds.advanceAt waiting delivered).longer
    · exact Nat.le_of_eq (by rw [show s = t + 1 by omega])

theorem Holds.delivered_stays
    (calm : ∀ k (_ : k < chain.edges.length), 0 < k → (chain.edges[k]).neutral = true → early k)
    {p t : Nat} (delivered : late[p]? = some i) (notEarly : ¬ early i)
    (after : p < t) :
    i < chain.landedAt l late t ∨ chain.edges.get i ∈ (chain.ledgerAt l late t).buffered := by
  induction t with
  | zero => omega
  | succ t ih =>
    rcases Nat.lt_or_ge p t with before | now
    · cases atT : late[t]? with
      | none =>
        simp only [landedAt, EdgeChain.ledgerAt, atT]
        exact ih before
      | some j =>
        have advance := holds.advanceAt waiting atT
        rcases ih before with inForce | inBuffer
        · exact .inl (Nat.lt_of_lt_of_le inForce advance.longer)
        · rcases advance.kept _ inBuffer with stays | landed
          · exact .inr stays
          · exact .inl ((advance.holds.inForce i.isLt).mp landed)
    · obtain rfl : p = t := by omega
      exact ((holds.advanceAt waiting delivered).lands calm).2 notEarly

theorem Holds.delivered_before
    (nothing : l.buffered = []) {j t : Nat} (bound : j < chain.edges.length) (beyond : l.active.length ≤ j)
    (here : j < chain.landedAt l late t ∨ chain.edges[j] ∈ (chain.ledgerAt l late t).buffered) :
    ∃ p < t, late[p]? = some ⟨j, bound⟩ := by
  induction t with
  | zero =>
    rcases here with inForce | inBuffer
    · simp only [landedAt, EdgeChain.ledgerAt] at inForce
      omega
    · simp [EdgeChain.ledgerAt, nothing] at inBuffer
  | succ t ih =>
    cases atT : late[t]? with
    | none =>
      simp only [landedAt, EdgeChain.ledgerAt, atT] at here
      obtain ⟨p, before, delivered⟩ := ih here
      exact ⟨p, by omega, delivered⟩
    | some i =>
      have advance := holds.advanceAt waiting atT
      have cameNow : j = i ∨ j < chain.landedAt l late t ∨ chain.edges[j] ∈ (chain.ledgerAt l late t).buffered := by
        rcases here with inForce | inBuffer
        · rcases Nat.lt_or_ge j (chain.landedAt l late t) with old | new
          · exact .inr (.inl old)
          · exact (advance.came j bound new inForce).imp id .inr
        · rcases advance.newcomer _ inBuffer with old | new
          · exact .inr (.inr old)
          · exact .inl (chain.getElem_inj bound i.isLt (congrArg _ new))
      rcases cameNow with isI | old
      · exact ⟨t, by omega, by rw [atT]; exact congrArg some (Fin.ext isI.symm)⟩
      · obtain ⟨p, before, delivered⟩ := ih old
        exact ⟨p, by omega, delivered⟩

theorem Holds.covered {z t : Nat} (room : z ≤ chain.edges.length) (below : ∀ j (bound : j < chain.edges.length), j < z →
      j < chain.landedAt l late t ∨ chain.edges[j] ∈ (chain.ledgerAt l late t).buffered) :
    z ≤ chain.landedAt l late t := by
  obtain ⟨holdsAt, waitingAt⟩ := holds.ledgerAt waiting late t
  by_contra short
  have bound : chain.landedAt l late t < chain.edges.length := by omega
  rcases below _ bound (by omega) with inForce | inBuffer
  · omega
  · exact waitingAt _ inBuffer ((holdsAt.atTip bound le_rfl).mpr rfl)

/-- A stored edge that the sweep could not bring into force: an edge before it was not there. -/
def Stranded (early : Nat → Prop) (z : Nat) : Prop :=
  early z ∧ ∃ j < z, ¬ early j

/-- Positions in the late deliveries at which the stranded edges come again, in chain order, each
after every missing edge before it. -/
def Redelivered (chain : EdgeChain platform source target) (early : Nat → Prop)
    (late : List (Fin chain.edges.length)) : Prop :=
  ∃ time : Nat → Nat, ∀ z (bound : z < chain.edges.length), Stranded early z → late[time z]? = some ⟨z, bound⟩ ∧
    (∀ j (_ : j < z), ¬ early j → ∃ p < time z, late[p]? = some ⟨j, by omega⟩) ∧
    ∀ y < z, Stranded early y → time y < time z

/-- Every revocation that revokes something reaches the instance while an endpoint is unknown. -/
def RevocationsEarly (chain : EdgeChain platform source target) (early : Nat → Prop) : Prop :=
  ∀ k (_ : k < chain.edges.length), 0 < k → (chain.edges[k]).neutral = true → early k

theorem Holds.revocationsEarly (swept : ∀ i < l.active.length, early i)
    (complete : chain.landedAt l late late.length = chain.edges.length) :
    chain.RevocationsEarly early := by
  intro k bound positive neutral
  by_contra notEarly
  have stuck : ∀ t, chain.landedAt l late t ≤ k := by
    intro t
    induction t with
    | zero =>
      by_contra inForce
      exact notEarly (swept k (Nat.lt_of_not_le inForce))
    | succ t ih =>
      cases atT : late[t]? with
      | none =>
        simp only [landedAt, EdgeChain.ledgerAt, atT]
        exact ih
      | some i => exact (holds.advanceAt waiting atT).refused k bound positive notEarly neutral ih
  have := stuck late.length
  omega

theorem Holds.stranded_lands {z t : Nat}
    (bound : z < chain.edges.length) (isEarly : early z) (before : chain.landedAt l late t ≤ z)
    (after : z < chain.landedAt l late (t + 1)) :
    late[t]? = some ⟨z, bound⟩ ∧ chain.landedAt l late t = z := by
  cases atT : late[t]? with
  | none =>
    simp only [landedAt, EdgeChain.ledgerAt, atT] at before after
    omega
  | some i =>
    have advance := holds.advanceAt waiting atT
    have direct := advance.direct (Nat.lt_of_le_of_lt before after)
    rcases advance.came z bound before after with isI | inBuffer
    · exact ⟨congrArg some (Fin.ext isI.symm), by rw [isI]; exact direct.symm⟩
    · obtain ⟨holdsAt, -⟩ := holds.ledgerAt waiting late t
      obtain ⟨j, boundJ, isJ, notEarly, -⟩ := holdsAt.buffered _ inBuffer
      obtain rfl := chain.getElem_inj bound boundJ (congrArg _ isJ)
      exact absurd isEarly notEarly

end

/-- The swept ledger: the longest prefix of what was delivered early. -/
structure Swept (chain : EdgeChain platform source target) (early : Nat → Prop) (l : Ledger platform) :
    Prop where
  holds : chain.Holds early l
  nothing : l.buffered = []
  inside : ∀ i < l.active.length, early i
  stops : l.active.length < chain.edges.length → ¬ early l.active.length

variable (swept : chain.Swept early l)
include swept

theorem Swept.waiting : l.Waiting := by
  intro e inBuffer
  rw [swept.nothing] at inBuffer
  cases inBuffer

theorem Swept.stranded_iff {z : Nat} (bound : z < chain.edges.length) :
    Stranded early z ↔ early z ∧ l.active.length ≤ z := by
  constructor
  · rintro ⟨isEarly, j, below, notEarly⟩
    refine ⟨isEarly, ?_⟩
    by_contra inForce
    exact notEarly (swept.inside j (by omega))
  · rintro ⟨isEarly, beyond⟩
    have notEarly := swept.stops (by omega)
    refine ⟨isEarly, l.active.length, ?_, notEarly⟩
    rcases Nat.lt_or_ge l.active.length z with below | above
    · exact below
    · exact absurd (show early l.active.length by rwa [show l.active.length = z by omega]) notEarly

theorem Swept.redelivered (complete : chain.landedAt l late late.length = chain.edges.length) :
    chain.Redelivered early late := by
  classical
  have holds := swept.holds
  have waiting := swept.waiting
  have reaches : ∀ z, z < chain.edges.length → l.active.length ≤ z → ∃ t, z < chain.landedAt l late (t + 1) := by
    intro z bound beyond
    refine ⟨late.length, ?_⟩
    have := holds.landed_mono waiting late (show late.length ≤ late.length + 1 by omega)
    omega
  refine ⟨fun z => if reach : ∃ t, z < chain.landedAt l late (t + 1) then Nat.find reach else 0, ?_⟩
  intro z bound stranded
  obtain ⟨isEarly, beyond⟩ := (swept.stranded_iff bound).mp stranded
  have reach := reaches z bound beyond
  simp only [reach, dite_true]
  have after := Nat.find_spec reach
  have before : chain.landedAt l late (Nat.find reach) ≤ z := by
    cases found : Nat.find reach with
    | zero => exact beyond
    | succ t =>
      by_contra more
      exact Nat.find_min reach (show t < Nat.find reach by omega) (by omega)
  obtain ⟨delivered, landed⟩ := holds.stranded_lands waiting bound isEarly before after
  refine ⟨delivered, ?_, ?_⟩
  · intro j below notEarly
    have boundJ : j < chain.edges.length := by omega
    have beyondJ : l.active.length ≤ j := by
      by_contra inForce
      exact notEarly (swept.inside j (by omega))
    exact holds.delivered_before waiting swept.nothing boundJ beyondJ (.inl (by omega))
  · intro y below strandedY
    have boundY : y < chain.edges.length := by omega
    obtain ⟨-, beyondY⟩ := (swept.stranded_iff boundY).mp strandedY
    have reachY := reaches y boundY beyondY
    simp only [reachY, dite_true]
    cases found : Nat.find reach with
    | zero =>
      rw [found] at landed
      have : chain.landedAt l late 0 = l.active.length := rfl
      omega
    | succ t =>
      rw [found] at landed
      have : Nat.find reachY ≤ t := Nat.find_min' reachY (by omega)
      omega

theorem Swept.complete (delivered : ∀ i (bound : i < chain.edges.length), early i ∨ (⟨i, bound⟩ : Fin _) ∈ late)
    (calm : chain.RevocationsEarly early) (redelivered : chain.Redelivered early late) :
    chain.landedAt l late late.length = chain.edges.length := by
  have holds := swept.holds
  have waiting := swept.waiting
  obtain ⟨time, comes⟩ := redelivered
  have strandedLands : ∀ z (bound : z < chain.edges.length), Stranded early z →
      z < chain.landedAt l late (time z + 1) := by
    intro z
    induction z using Nat.strongRecOn with
    | ind z ih =>
      intro bound stranded
      obtain ⟨delivered, missing, ordered⟩ := comes z bound stranded
      have reached : z ≤ chain.landedAt l late (time z) := by
        refine holds.covered waiting (Nat.le_of_lt bound) ?_
        intro j boundJ below
        by_cases isEarly : early j
        · left
          by_cases inForce : j < l.active.length
          · exact Nat.lt_of_lt_of_le inForce (holds.landed_mono waiting late (Nat.zero_le _))
          · have strandedJ := (swept.stranded_iff boundJ).mpr ⟨isEarly, by omega⟩
            have earlier := ordered j below strandedJ
            exact Nat.lt_of_lt_of_le (ih j below boundJ strandedJ) (holds.landed_mono waiting late (by omega))
        · obtain ⟨p, before, deliveredJ⟩ := missing j below isEarly
          exact holds.delivered_stays waiting calm deliveredJ isEarly before
      rcases Nat.lt_or_ge z (chain.landedAt l late (time z)) with already | now
      · exact Nat.lt_of_lt_of_le already (holds.landed_mono waiting late (Nat.le_succ _))
      · have advance := holds.advanceAt waiting delivered
        exact (advance.lands calm).1 stranded.1 (Nat.le_antisymm reached now)
  have all : chain.edges.length ≤ chain.landedAt l late late.length := by
    refine holds.covered waiting le_rfl ?_
    intro j bound _
    by_cases isEarly : early j
    · left
      by_cases inForce : j < l.active.length
      · exact Nat.lt_of_lt_of_le inForce (holds.landed_mono waiting late (Nat.zero_le _))
      · have stranded := (swept.stranded_iff bound).mpr ⟨isEarly, by omega⟩
        obtain ⟨comesAt, -⟩ := comes j bound stranded
        obtain ⟨inside, -⟩ := List.getElem?_eq_some_iff.mp comesAt
        exact Nat.lt_of_lt_of_le (strandedLands j bound stranded) (holds.landed_mono waiting late (by omega))
    · rcases delivered j bound with early' | inLate
      · exact absurd early' isEarly
      · obtain ⟨p, inside, isJ⟩ := mem_iff_getElem.mp inLate
        refine holds.delivered_stays waiting calm (List.getElem?_eq_some_iff.mpr ⟨inside, isJ⟩) isEarly inside
  have most := (holds.ledgerAt waiting late late.length).1.size
  have : (chain.ledgerAt l late late.length).active.length = chain.landedAt l late late.length := rfl
  omega

end Positions

abbrev Deliveries (chain : EdgeChain platform source target) :=
  List (Fin chain.edges.length × Key)

def deliverAll (chain : EdgeChain platform source target) (state : AppState) (db : Db)
    (deliveries : chain.Deliveries) : Db :=
  deliveries.foldl (fun db d => deliverEdge state db (chain.edges[d.1.val]).wire d.2) db

/-- A stub hydration: the key, the display name of its profile and the home it is stamped with. -/
structure Hydration where
  key : Key
  displayName : Text
  home : Key

/-- An interleaving of one or more deliveries of every edge with the hydration of the two endpoints. -/
structure Schedule (chain : EdgeChain platform source target) where
  before : chain.Deliveries
  first : Hydration
  between : chain.Deliveries
  second : Hydration
  after : chain.Deliveries
  endpoints : (first.key = source ∧ second.key = target) ∨ (first.key = target ∧ second.key = source)
  delivered : ∀ i, ∃ d ∈ before ++ between ++ after, d.1 = i

namespace Schedule

/-- The position is delivered while an endpoint is still unknown. -/
def early (schedule : Schedule chain) (i : Nat) : Prop :=
  ∃ d ∈ schedule.before ++ schedule.between, d.1.val = i

def late (schedule : Schedule chain) : List (Fin chain.edges.length) :=
  schedule.after.map Prod.fst

def run (schedule : Schedule chain) (state : AppState) (db : Db) : Db :=
  let db := chain.deliverAll state db schedule.before
  let db := hydrateAndSweep state db schedule.first.key schedule.first.displayName schedule.first.home
  let db := chain.deliverAll state db schedule.between
  let db := hydrateAndSweep state db schedule.second.key schedule.second.displayName schedule.second.home
  chain.deliverAll state db schedule.after

end Schedule

def Converged (chain : EdgeChain platform source target) (db : Db) : Prop :=
  ((db.trustEdges.filter fun row => row.sourceUser = source ∧ row.targetUser = target).map
    (·.canonicalHash)).Perm (chain.edges.map (·.hash))

/-- No trust-edge has reached the instance yet, and the stored objects of other classes do not
collide with the chain's. -/
structure Pristine (chain : EdgeChain platform source target) (db : Db) : Prop where
  noEdges : db.trustEdges = []
  noPending : db.pendingTrustEdges = []
  objects : ∀ row ∈ db.signedObjects, row.innerClass ≠ .trustEdge ∧ ∀ e ∈ chain.edges, row.canonicalHash ≠ e.hash
  unique : ∀ row ∈ db.signedObjects, ∀ other ∈ db.signedObjects, row.canonicalHash = other.canonicalHash → row = other

variable {db : Db} {state : AppState} {archived : List (SignedEdge platform)}

theorem Pristine.parked (pristine : chain.Pristine db) (state : AppState) :
    Parked source target chain.edges state [] db :=
  ⟨⟨by simpa using pristine.noEdges, by simp, by simp, by simp, trivial,
    fun row stored => .inr (pristine.objects row stored), by simp, by simp, by simp, pristine.unique⟩,
    pristine.noPending, nodup_nil⟩

theorem mem_park (sub : ∀ e ∈ archived, e ∈ chain.edges)
    {e f : SignedEdge platform} (inF : f ∈ chain.edges) :
    e ∈ park archived f ↔ e ∈ archived ∨ e = f := by
  unfold park
  cases held : Ledger.holds archived f.hash with
  | true =>
    have stored := (Ledger.holds_of_mem chain.forkFree inF sub).mp held
    simp only [if_true]
    constructor
    · exact .inl
    · rintro (old | rfl)
      · exact old
      · exact stored
  | false => simp

theorem parked_deliverAll (same : state.platform = platform)
    (deliveries : chain.Deliveries)
    (parked : Parked source target chain.edges state archived db)
    (unknown : db.hasUser source = false ∨ db.hasUser target = false) :
    ∃ archived', Parked source target chain.edges state archived' (chain.deliverAll state db deliveries) ∧
      (chain.deliverAll state db deliveries).users = db.users ∧
      ∀ e, e ∈ archived' ↔ e ∈ archived ∨ ∃ d ∈ deliveries, e = chain.edges[d.1.val] := by
  induction deliveries generalizing archived db with
  | nil => exact ⟨archived, parked, rfl, by simp⟩
  | cons d rest ih =>
    obtain ⟨parkedNext, users⟩ := parked.deliver chain.forkFree same unknown (getElem_mem d.1.isLt) d.2
    have sameKnown : ∀ key, (deliverEdge state db (chain.edges[d.1.val]).wire d.2).hasUser key = db.hasUser key := by
      intro key
      simp only [hasUser, users]
    obtain ⟨archived', parkedEnd, usersEnd, members⟩ := ih parkedNext (by
      rw [sameKnown, sameKnown]
      exact unknown)
    refine ⟨archived', parkedEnd, usersEnd.trans users, ?_⟩
    intro e
    rw [members e, mem_park parked.rep.archivedMem (getElem_mem d.1.isLt)]
    simp only [mem_cons, exists_eq_or_imp, or_assoc]

theorem swept_of_hydrated {l : Ledger platform}
    {early : Nat → Prop} (tracks : Tracks source target chain.edges state l db)
    (nothing : l.buffered = [])
    (covers : ∀ e ∈ chain.edges, (Ledger.holds l.active e.hash = true ∨
      Ledger.holds l.archived e.hash = true) ↔ e ∈ archived)
    (stuck : ∀ e ∈ l.archived, e.prior ≠ tip SignedEdge.hash l.active)
    (members : ∀ i (bound : i < chain.edges.length), chain.edges[i] ∈ archived ↔ early i) :
    chain.Swept early l := by
  obtain ⟨size, active⟩ := chain.prefix_of_linked tracks.rep.linked tracks.rep.activeMem
  have inForce : ∀ i (bound : i < chain.edges.length),
      Ledger.holds l.active (chain.edges[i]).hash = true ↔ i < l.active.length := by
    intro i bound
    have := chain.mem_take bound (m := l.active.length)
    rwa [← active] at this
  have stored : ∀ i (bound : i < chain.edges.length),
      Ledger.holds l.archived (chain.edges[i]).hash = true ↔ early i ∧ l.active.length ≤ i := by
    intro i bound
    have covered := covers _ (getElem_mem bound)
    rw [inForce i bound, members i bound] at covered
    constructor
    · intro held
      refine ⟨covered.mp (.inr held), ?_⟩
      obtain ⟨f, inArchived, sameHash⟩ := Ledger.holds_iff.mp held
      by_contra below
      have apart := tracks.rep.apart f inArchived
      rw [sameHash, (inForce i bound).mpr (by omega)] at apart
      cases apart
    · rintro ⟨isEarly, beyond⟩
      rcases covered.mpr isEarly with below | held
      · omega
      · exact held
  have holds : chain.Holds early l := ⟨active, stored, by simp [nothing]⟩
  refine ⟨holds, nothing, ?_, ?_⟩
  · intro i below
    have bound : i < chain.edges.length := by omega
    exact (members i bound).mp ((covers _ (getElem_mem bound)).mp (.inl ((inForce i bound).mpr below)))
  · intro room isEarly
    have held := (stored _ room).mpr ⟨isEarly, le_rfl⟩
    obtain ⟨f, inArchived, sameHash⟩ := Ledger.holds_iff.mp held
    obtain rfl := chain.hash_injective (tracks.rep.archivedMem f inArchived) (getElem_mem room) sameHash
    exact stuck _ inArchived ((holds.atTip room le_rfl).mpr rfl)

theorem tracks_deliverAll (same : state.platform = platform) {l : Ledger platform}
    (deliveries : chain.Deliveries) (tracks : Tracks source target chain.edges state l db)
    (waiting : l.Waiting) :
    Tracks source target chain.edges state
      ((deliveries.map Prod.fst).foldl (fun l i => l.deliver (chain.edges.get i)) l)
      (chain.deliverAll state db deliveries) := by
  induction deliveries generalizing l db with
  | nil => exact tracks
  | cons d rest ih =>
    obtain ⟨tracksNext, waitingNext⟩ :=
      tracks.deliver chain.forkFree same (getElem_mem d.1.isLt) waiting d.2
    exact ih tracksNext waitingNext

theorem converged_iff {l : Ledger platform} {early : Nat → Prop}
    (tracks : Tracks source target chain.edges state l db) (holds : chain.Holds early l) :
    chain.Converged db ↔ l.active.length = chain.edges.length := by
  have rows : (db.trustEdges.filter fun row => row.sourceUser = source ∧ row.targetUser = target).map
      (·.canonicalHash) = l.active.map (·.hash) := by
    rw [tracks.rep.activeRows, filter_eq_self.mpr]
    · simp [edgeRow, Function.comp_def]
    · intro row inRows
      obtain ⟨e, inActive, rfl⟩ := mem_map.mp inRows
      exact decide_eq_true (chain.pair e (tracks.rep.activeMem e inActive))
  rw [Converged, rows]
  constructor
  · intro permuted
    simpa using permuted.length_eq
  · intro whole
    rw [holds.active, whole, take_length]

theorem Schedule.known (schedule : Schedule chain) (two : source ≠ target) {before : Db}
    (sourceUnknown : db.hasUser source = false) (targetUnknown : db.hasUser target = false)
    (users : before.users = db.users) :
    (schedule.first.key = source ∨ schedule.first.key = target) ∧
    (schedule.second.key = source ∨ schedule.second.key = target) ∧
    ((hydrateStubUser state before schedule.first.key schedule.first.displayName schedule.first.home).hasUser
        source = false ∨
      (hydrateStubUser state before schedule.first.key schedule.first.displayName schedule.first.home).hasUser
        target = false) ∧
    ∀ between : Db, between.users = (hydrateStubUser state before schedule.first.key
        schedule.first.displayName schedule.first.home).users →
      (hydrateStubUser state between schedule.second.key schedule.second.displayName
        schedule.second.home).hasUser source = true ∧
      (hydrateStubUser state between schedule.second.key schedule.second.displayName
        schedule.second.home).hasUser target = true := by
  have unknown : ∀ key, before.hasUser key = db.hasUser key := by
    intro key
    simp only [hasUser, users]
  have missed : ∀ key, db.hasUser key = false → key ≠ schedule.first.key →
      (hydrateStubUser state before schedule.first.key schedule.first.displayName
        schedule.first.home).hasUser key = false := by
    intro key absent other
    rw [Bool.eq_false_iff, ne_eq, hasUser_hydrateStubUser, unknown, absent]
    simp [other]
  have reached : ∀ between : Db, between.users = (hydrateStubUser state before schedule.first.key
        schedule.first.displayName schedule.first.home).users → ∀ key,
      key = schedule.second.key ∨ key = schedule.first.key →
      (hydrateStubUser state between schedule.second.key schedule.second.displayName
        schedule.second.home).hasUser key = true := by
    intro between same key which
    rw [hasUser_hydrateStubUser]
    refine which.imp id fun isFirst => ?_
    have kept : between.hasUser key = (hydrateStubUser state before schedule.first.key
        schedule.first.displayName schedule.first.home).hasUser key := by
      simp only [hasUser, same]
    rw [kept, hasUser_hydrateStubUser]
    exact .inl isFirst
  rcases schedule.endpoints with ⟨first, second⟩ | ⟨first, second⟩
  · refine ⟨.inl first, .inr second, .inr (missed target targetUnknown (by rw [first]; exact two.symm)), ?_⟩
    intro between same
    exact ⟨reached between same source (.inr first.symm), reached between same target (.inl second.symm)⟩
  · refine ⟨.inr first, .inl second, .inl (missed source sourceUnknown (by rw [first]; exact two)), ?_⟩
    intro between same
    exact ⟨reached between same source (.inl second.symm), reached between same target (.inr first.symm)⟩

/--
Trust-edge ingest of a chain converges exactly when every revocation arrives while an endpoint is
still unknown and every stranded edge is delivered again, in chain order, after the edges that were
missing before it.
-/
theorem converged_run_iff (chain : EdgeChain platform source target) (state : AppState)
    (same : state.platform = platform) (schedule : Schedule chain) (db : Db)
    (pristine : chain.Pristine db) (two : source ≠ target)
    (sourceUnknown : db.hasUser source = false) (targetUnknown : db.hasUser target = false) :
    chain.Converged (schedule.run state db) ↔
      chain.RevocationsEarly schedule.early ∧ chain.Redelivered schedule.early schedule.late := by
  obtain ⟨archived₁, parked₁, users₁, members₁⟩ :=
    parked_deliverAll same schedule.before (pristine.parked state) (.inl sourceUnknown)
  obtain ⟨endpoint₁, endpoint₂, stillUnknown, nowKnown⟩ := schedule.known two sourceUnknown targetUnknown users₁
  have idle := parked₁.hydrate_first chain.forkFree same endpoint₁ stillUnknown
  obtain ⟨archived₂, parked₂, users₂, members₂⟩ :=
    parked_deliverAll same schedule.between parked₁.hydrated stillUnknown
  obtain ⟨sourceKnown, targetKnown⟩ := nowKnown _ users₂
  obtain ⟨l, tracks, nothing, covers, stuck⟩ :=
    parked₂.hydrate_second chain.forkFree same endpoint₂ sourceKnown targetKnown
  have swept : chain.Swept schedule.early l := by
    refine swept_of_hydrated tracks nothing covers stuck ?_
    intro i bound
    rw [members₂, members₁, Schedule.early]
    simp only [not_mem_nil, false_or, mem_append]
    constructor
    · rintro (⟨d, inBefore, isI⟩ | ⟨d, inBetween, isI⟩)
      · exact ⟨d, .inl inBefore, (chain.getElem_inj bound d.1.isLt (congrArg _ isI)).symm⟩
      · exact ⟨d, .inr inBetween, (chain.getElem_inj bound d.1.isLt (congrArg _ isI)).symm⟩
    · rintro ⟨d, inBefore | inBetween, rfl⟩
      · exact .inl ⟨d, inBefore, rfl⟩
      · exact .inr ⟨d, inBetween, rfl⟩
  have tracksEnd := tracks_deliverAll same schedule.after tracks swept.waiting
  rw [foldl_deliver] at tracksEnd
  have finalDb : schedule.run state db = chain.deliverAll state (hydrateAndSweep state
      (chain.deliverAll state (hydrateStubUser state (chain.deliverAll state db schedule.before)
        schedule.first.key schedule.first.displayName schedule.first.home) schedule.between)
      schedule.second.key schedule.second.displayName schedule.second.home) schedule.after := by
    simp only [Schedule.run, idle]
  have holdsEnd := (swept.holds.ledgerAt swept.waiting schedule.late schedule.late.length).1
  rw [finalDb, converged_iff tracksEnd holdsEnd]
  constructor
  · intro complete
    exact ⟨swept.holds.revocationsEarly swept.waiting swept.inside complete, swept.redelivered complete⟩
  · rintro ⟨calm, redelivered⟩
    refine swept.complete ?_ calm redelivered
    intro i bound
    obtain ⟨d, inSchedule, isI⟩ := schedule.delivered ⟨i, bound⟩
    rcases mem_append.mp inSchedule with isEarly | inAfter
    · exact .inl ⟨d, isEarly, congrArg Fin.val isI⟩
    · exact .inr (mem_map.mpr ⟨d, inAfter, isI⟩)

def revocationTable : List SignedPayload :=
  [.trustEdge ⟨1, 2, .trust, 1000, none⟩, .trustEdge ⟨1, 2, .neutral, 2000, some 1⟩,
    .trustEdge ⟨1, 2, .distrust, 2000, some 1⟩]

def revocationState : AppState where
  platform := Platform.ofTable revocationTable
  instanceKey := 9
  edgeRowId hash := hash.setWidth 128
  edgeClock _ := "00009"

/-- A grants trust and then revokes it. -/
def revocationChain : EdgeChain (Platform.ofTable revocationTable) 1 2 where
  edges := [SignedEdge.ofTable revocationTable 0 _ rfl, SignedEdge.ofTable revocationTable 1 _ rfl]
  pair := by decide
  linked := ⟨rfl, rfl, trivial⟩
  distinct := by decide

/-- A grants trust and then turns it into distrust. -/
def reversalChain : EdgeChain (Platform.ofTable revocationTable) 1 2 where
  edges := [SignedEdge.ofTable revocationTable 0 _ rfl, SignedEdge.ofTable revocationTable 2 _ rfl]
  pair := by decide
  linked := ⟨rfl, rfl, trivial⟩
  distinct := by decide

/-- The revocation comes before its endpoints, the grant after them, each once. -/
def revokedFirst : Schedule revocationChain where
  before := [(⟨1, by decide⟩, 7)]
  first := ⟨1, "a", 7⟩
  between := []
  second := ⟨2, "b", 7⟩
  after := [(⟨0, by decide⟩, 7)]
  endpoints := .inl ⟨rfl, rfl⟩
  delivered := by decide

/-- Both endpoints are known before the first edge comes; the edges then come in chain order. -/
def revokedInOrder : Schedule revocationChain where
  before := []
  first := ⟨1, "a", 7⟩
  between := []
  second := ⟨2, "b", 7⟩
  after := [(⟨0, by decide⟩, 7), (⟨1, by decide⟩, 7)]
  endpoints := .inl ⟨rfl, rfl⟩
  delivered := by decide

/-- The reversal comes before its endpoints, the grant after them, and then the reversal again. -/
def reversedTwice : Schedule reversalChain where
  before := [(⟨1, by decide⟩, 7)]
  first := ⟨1, "a", 7⟩
  between := []
  second := ⟨2, "b", 7⟩
  after := [(⟨0, by decide⟩, 7), (⟨1, by decide⟩, 7)]
  endpoints := .inl ⟨rfl, rfl⟩
  delivered := by decide

theorem pristine_empty (chain : EdgeChain platform source target) : chain.Pristine {} :=
  ⟨rfl, rfl, by simp, by simp⟩

/--
The two ways a revocation is lost: delivered first it is stored and never tried again, delivered in
order its erasure of the granted edge fails on its own missing row.
-/
theorem revocation_lost : revocationChain.Pristine {} ∧
      ¬ revocationChain.Converged (revokedFirst.run revocationState {}) ∧
      ¬ revocationChain.Converged (revokedInOrder.run revocationState {}) := by
  refine ⟨pristine_empty _, ?_, ?_⟩
  · intro converged
    exact absurd converged.length_eq (by decide)
  · intro converged
    exact absurd converged.length_eq (by decide)

theorem reversal_converged : reversalChain.Converged (reversedTwice.run revocationState {}) := by
  refine (converged_run_iff reversalChain revocationState rfl reversedTwice {} (pristine_empty _)
    (by decide) rfl rfl).mpr ⟨?_, fun _ => 1, ?_⟩
  · intro k bound positive neutral
    obtain rfl : k = 1 := by
      have : reversalChain.edges.length = 2 := rfl
      omega
    exact absurd neutral Bool.false_ne_true
  · rintro z bound ⟨⟨d, delivered, rfl⟩, -⟩
    obtain rfl : d = (⟨1, by decide⟩, 7) := by
      simpa [reversedTwice] using delivered
    refine ⟨rfl, ?_, ?_⟩
    · intro j below _
      obtain rfl : j = 0 := by
        have : j < 1 := below
        omega
      exact ⟨0, by decide, rfl⟩
    · rintro y below ⟨⟨d, delivered, rfl⟩, -⟩
      obtain rfl : d = (⟨1, by decide⟩, 7) := by
        simpa [reversedTwice] using delivered
      exact absurd below (by decide)

end EdgeChain

end Prismoire
