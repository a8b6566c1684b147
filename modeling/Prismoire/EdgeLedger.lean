import Prismoire.Edges
import Prismoire.Lib.Chain

namespace Prismoire

open Lib List Option

/-- A trust-edge as a peer pushes it: bytes that decode, parse and verify. -/
structure SignedEdge (platform : Platform) where
  wire : Bytes
  payload : Bytes
  signature : Bytes
  edge : TrustEdge
  decodes : platform.decodeSignedObject wire = some (payload, signature)
  parses : platform.parse payload = some (.trustEdge edge)
  verified : signatureOk platform payload signature edge.fromKey = true

namespace SignedEdge

variable {platform : Platform}

variable (e : SignedEdge platform)

def hash : Hash :=
  platform.sha256 e.payload

def prior : Option Hash :=
  e.edge.priorEdgeHash

def neutral : Bool :=
  e.edge.stance = .neutral

def liveRow : SignedObjectRow :=
  { canonicalHash := e.hash, innerClass := .trustEdge, payload := some e.payload,
    signature := e.signature }

def pendingRow : PendingTrustEdgeRow where
  sourcePubkey := e.edge.fromKey
  targetPubkey := e.edge.toKey
  priorEdgeHash := e.prior.getD 0
  canonicalHash := e.hash
  payload := e.payload
  signature := e.signature

def ofTable (table : List SignedPayload) (i : UInt8) (edge : TrustEdge)
    (parses : (Platform.ofTable table).parse [i] = some (.trustEdge edge)) :
    SignedEdge (Platform.ofTable table) where
  wire := [i]
  payload := [i]
  signature := List.replicate 64 0
  edge := edge
  decodes := rfl
  parses := parses
  verified := by
    simp only [signatureOk, verify, parses, identityBinding]
    simp [Platform.ofTable, Except.isOk, Except.toBool]

end SignedEdge

structure ForkFree {platform : Platform} (source target : Key) (edges : List (SignedEdge platform)) :
    Prop where
  pair : ∀ e ∈ edges, e.edge.fromKey = source ∧ e.edge.toKey = target
  distinct : ∀ e ∈ edges, ∀ f ∈ edges, e.hash = f.hash → e = f
  linear : ∀ e ∈ edges, ∀ f ∈ edges, e.prior = f.prior → e = f

/--
What an instance knows about one pair: the edges in force, the edges stored without being in
force, and the edges buffered until their predecessor arrives.
-/
structure Ledger (platform : Platform) where
  active : List (SignedEdge platform)
  archived : List (SignedEdge platform)
  buffered : List (SignedEdge platform)

namespace Ledger

variable {platform : Platform}

def holds (edges : List (SignedEdge platform)) (hash : Hash) : Bool :=
  edges.any (·.hash = hash)

def grounded (l : Ledger platform) (e : SignedEdge platform) : Bool :=
  e.prior.all (holds l.active)

def activate (l : Ledger platform) (e : SignedEdge platform) : Ledger platform :=
  { l with
    active := l.active ++ [e]
    archived := l.archived.filter (·.hash ≠ e.hash) }

/-- Buffered successors land one after the other; a neutral one makes the whole delivery fail. -/
def follow : Nat → Ledger platform → Hash → Option (Ledger platform)
  | 0, l, _ => some l
  | fuel + 1, l, current =>
    match l.buffered.find? (·.prior = some current) with
    | none => some l
    | some next =>
      if next.neutral then
        none
      else
        follow fuel ({ l with buffered := l.buffered.filter (·.prior ≠ some current) }.activate next) next.hash

def land (l : Ledger platform) (e : SignedEdge platform) : Ledger platform :=
  (follow (l.buffered.length + 1) (l.activate e) e.hash).getD l

/-- One delivery. A neutral edge that revokes something can only come into force once stored. -/
def deliver (l : Ledger platform) (e : SignedEdge platform) : Ledger platform :=
  if holds l.active e.hash then
    l
  else if holds l.archived e.hash then
    if l.grounded e then l.land e else l
  else if l.grounded e then
    if e.neutral && e.prior.isSome then l else l.land e
  else if l.buffered.any (·.prior = e.prior) then
    l
  else
    { l with buffered := l.buffered ++ [e] }

variable {hash : Hash}

theorem holds_iff {edges : List (SignedEdge platform)} : holds edges hash = true ↔ ∃ e ∈ edges, e.hash = hash := by
  simp [holds]

theorem holds_activate {l : Ledger platform} {e : SignedEdge platform} :
    holds (l.activate e).active hash = true ↔ holds l.active hash = true ∨ e.hash = hash := by
  simp [activate, holds]

theorem archived_activate {l : Ledger platform} {e : SignedEdge platform} :
    holds (l.activate e).archived hash = true ↔ holds l.archived hash = true ∧ hash ≠ e.hash := by
  simp only [activate, holds_iff, mem_filter, decide_eq_true_eq]
  constructor
  · rintro ⟨f, ⟨inArchived, other⟩, rfl⟩
    exact ⟨⟨f, inArchived, rfl⟩, other⟩
  · rintro ⟨⟨f, inArchived, rfl⟩, other⟩
    exact ⟨f, ⟨inArchived, other⟩, rfl⟩

theorem tip_mem {active : List (SignedEdge platform)} (last : tip SignedEdge.hash active = some hash) :
    ∃ e ∈ active, active.getLast? = some e ∧ e.hash = hash := by
  simp only [tip, map_eq_some_iff] at last
  obtain ⟨e, atEnd, same⟩ := last
  exact ⟨e, mem_of_getLast? atEnd, atEnd, same⟩

theorem grounded_iff {source target : Key} {edges active : List (SignedEdge platform)}
    {e : SignedEdge platform} (free : ForkFree source target edges)
    (linked : Linked SignedEdge.hash SignedEdge.prior none active)
    (sub : ∀ f ∈ active, f ∈ edges) (mem : e ∈ edges) (fresh : holds active e.hash = false) :
    e.prior.all (holds active) = true ↔ e.prior = tip SignedEdge.hash active := by
  have notActive : e ∉ active := fun inActive =>
    absurd (holds_iff.mpr ⟨e, inActive, rfl⟩) (by simp [fresh])
  constructor
  · intro ground
    cases prior : e.prior with
    | none =>
      cases active with
      | nil => rfl
      | cons f rest =>
        have same : f = e := free.linear f (sub f (by simp)) e mem (linked.1.trans prior.symm)
        exact absurd (same ▸ mem_cons_self) notActive
    | some hash =>
      rw [prior, all_some] at ground
      obtain ⟨f, inActive, same⟩ := holds_iff.mp ground
      rcases linked.tip_or_successor inActive with last | ⟨g, inActive', next⟩
      · rw [last, same]
      · have other : g = e :=
          free.linear g (sub g inActive') e mem (by rw [next, prior, same])
        exact absurd (other ▸ inActive') notActive
  · intro next
    cases last : tip SignedEdge.hash active with
    | none => simp [next, last]
    | some hash =>
      obtain ⟨f, inActive, -, same⟩ := tip_mem last
      simpa [next, last] using holds_iff.mpr ⟨f, inActive, same⟩

def Waiting (l : Ledger platform) : Prop :=
  ∀ e ∈ l.buffered, e.prior ≠ tip SignedEdge.hash l.active

theorem follow_waiting {fuel : Nat} {l landed : Ledger platform} {current : Hash}
    (enough : l.buffered.length < fuel) (atTip : tip SignedEdge.hash l.active = some current)
    (run : follow fuel l current = some landed) : landed.Waiting := by
  induction fuel generalizing l current with
  | zero => omega
  | succ fuel ih =>
    simp only [follow] at run
    cases found : l.buffered.find? (·.prior = some current) with
    | none =>
      simp only [found, some.injEq] at run
      subst run
      intro e inBuffer next
      exact absurd (next.trans atTip) (by simpa using find?_eq_none.mp found e inBuffer)
    | some next =>
      simp only [found] at run
      cases neutral : next.neutral with
      | true => simp [neutral] at run
      | false =>
        simp only [neutral, Bool.false_eq_true, if_false] at run
        have inBuffer := mem_of_find?_eq_some found
        have isNext : next.prior = some current := by simpa using find?_some found
        refine ih ?_ (by simp [activate, tip]) run
        have shorter : (l.buffered.filter (·.prior ≠ some current)).length < l.buffered.length := by
          apply length_filter_lt_length_iff_exists.mpr
          exact ⟨next, inBuffer, by simp [isNext]⟩
        simp only [activate]
        omega

theorem land_waiting {l : Ledger platform} {e : SignedEdge platform} (waiting : l.Waiting) : (l.land e).Waiting := by
  unfold land
  cases run : follow (l.buffered.length + 1) (l.activate e) e.hash with
  | none => exact waiting
  | some landed =>
    exact follow_waiting (Nat.lt_succ_self _) (by simp [activate, tip]) run

end Ledger

end Prismoire
