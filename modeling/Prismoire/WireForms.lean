import Prismoire.Content
import Prismoire.EdgeBackfill
import Prismoire.Status

namespace Prismoire

open Lib Lib.Cbor List Option

/-- The frame of a signed object with its keys the other way around. -/
def turnedMap (payload signature : Bytes) : Value :=
  .map [(.text "s", .bytes signature), (.text "p", .bytes payload)]

/-- The library reads back what it wrote, whatever follows it. -/
def Ciborium.StopsAfter (cbor : Ciborium) : Prop :=
  ∀ value, Plain 256 value → ∀ rest, cbor.fromReader (cbor.intoWriter value ++ rest) = some value

def FitsHead (payload signature : Bytes) : Prop :=
  payload.length < 2 ^ 64 ∧ signature.length < 2 ^ 64

section Forms

variable {cbor : Ciborium} {input payload signature : Bytes}

theorem Ciborium.StopsAfter.faithful (stops : cbor.StopsAfter) : cbor.Faithful := by
  intro value plain
  have read := stops value plain []
  rwa [append_nil] at read

theorem plain_pair {first second : String} {b c : Bytes} (named : first.utf8ByteSize < 2 ^ 64)
    (named' : second.utf8ByteSize < 2 ^ 64) (fits : b.length < 2 ^ 64) (fits' : c.length < 2 ^ 64) :
    Plain 256 (.map [(.text first, .bytes b), (.text second, .bytes c)]) := by
  have flat : Plain 2 (.map [(.text first, .bytes b), (.text second, .bytes c)]) := by
    refine ⟨by simp, ?_⟩
    intro entry mem
    rcases mem_cons.mp mem with rfl | mem
    · exact ⟨named, fits⟩
    · rw [mem_singleton.mp mem]
      exact ⟨named', fits'⟩
  exact flat.mono (by omega)

theorem plain_signedObjectMap (fits : FitsHead payload signature) : Plain 256 (signedObjectMap payload signature) :=
  plain_pair (by decide) (by decide) fits.1 fits.2

theorem plain_turnedMap (fits : FitsHead payload signature) : Plain 256 (turnedMap payload signature) :=
  plain_pair (by decide) (by decide) fits.2 fits.1

theorem readFrameField_some {found read : Option Bytes × Option Bytes} {entry : Value × Value}
    (run : readFrameField found entry = some read) :
    ∃ content, entry.2 = .bytes content ∧
      (entry.1 = .text "p" ∧ read = (some content, found.2) ∨ entry.1 = .text "s" ∧ read = (found.1, some content)) := by
  unfold readFrameField at run
  split at run
  · rename_i name content
    refine ⟨content, rfl, ?_⟩
    split at run
    · rename_i isPayload
      exact .inl ⟨by rw [isPayload], (some.inj run).symm⟩
    · split at run
      · rename_i isSignature
        exact .inr ⟨by rw [isSignature], (some.inj run).symm⟩
      · cases run
  · cases run

theorem decodeSignedObject_iff : decodeSignedObject cbor input = some (payload, signature) ↔
    cbor.fromReader input = some (signedObjectMap payload signature) ∨
      cbor.fromReader input = some (turnedMap payload signature) := by
  constructor
  · intro run
    unfold decodeSignedObject at run
    split at run
    · rename_i entries isMap
      rw [isMap]
      split at run
      · cases run
      · rename_i pair
        obtain ⟨⟨key, value⟩, ⟨key', value'⟩, rfl⟩ := length_eq_two.mp (not_not.mp pair)
        obtain ⟨read, folded, returned⟩ := bind_eq_some_iff.mp run
        obtain ⟨first, readFirst, folded⟩ := bind_eq_some_iff.mp folded
        obtain ⟨last, readLast, ended⟩ := bind_eq_some_iff.mp folded
        cases ended
        obtain ⟨content, isBytes, first⟩ := readFrameField_some readFirst
        obtain ⟨content', isBytes', last⟩ := readFrameField_some readLast
        dsimp only at isBytes isBytes' first last
        subst isBytes isBytes'
        rcases first with ⟨rfl, rfl⟩ | ⟨rfl, rfl⟩
        · rcases last with ⟨rfl, rfl⟩ | ⟨rfl, rfl⟩
          · cases returned
          · cases returned
            exact .inl rfl
        · rcases last with ⟨rfl, rfl⟩ | ⟨rfl, rfl⟩
          · cases returned
            exact .inr rfl
          · cases returned
    · cases run
  · rintro (read | read)
    · rw [decodeSignedObject, read]
      rfl
    · rw [decodeSignedObject, read]
      rfl

variable (stops : cbor.StopsAfter) (fits : FitsHead payload signature) (rest : Bytes)
include stops fits rest

theorem decodeSignedObject_followed :
    decodeSignedObject cbor (encodeSignedObject cbor payload signature ++ rest) = some (payload, signature) :=
  decodeSignedObject_iff.mpr (.inl (stops _ (plain_signedObjectMap fits) rest))

theorem decodeSignedObject_turned :
    decodeSignedObject cbor (cbor.intoWriter (turnedMap payload signature) ++ rest) = some (payload, signature) :=
  decodeSignedObject_iff.mpr (.inr (stops _ (plain_turnedMap fits) rest))

end Forms

section Relays

variable {state : AppState} {db : Db} {input other payload signature : Bytes} {last : Bytes}
  {hops : List (Bytes → Option Bytes)}

/-- What `apply_one_object` hands to the forwarder: the bytes that came. -/
def relayObject (state : AppState) (db : Db) (wireBytes : Bytes) (arrivedFrom : Key) : Option Bytes :=
  match applyOneObject state db wireBytes arrivedFrom with
  | .ok (⟨_, .applied⟩, _) => some wireBytes
  | _ => none

/-- What the handlers of statuses hand to it: the object encoded anew. The cap of the issuer admits the forward or not. -/
def relayStatus {ι σ ρ : Type} (cbor : Ciborium) (cls : StatusClass ι σ ρ) (host : Host) (s : StatusDb) (admits : Bool)
    (wireBytes : Bytes) : Option Bytes := do
  let (payload, signature) ← host.platform.decodeSignedObject wireBytes
  match applyOneStatus cls host s wireBytes with
  | .ok (answer, _) =>
    if (answer = .applied ∨ answer = .superseded) ∧ admits then some (encodeSignedObject cbor payload signature) else none
  | .error _ => none

/-- The handlers of the instances on the way of an object, each with what it passes on. -/
def alongHops (hops : List (Bytes → Option Bytes)) (wireBytes : Bytes) : Option Bytes :=
  hops.foldlM (fun wireBytes relay => relay wireBytes) wireBytes

theorem alongHops_cons {relay : Bytes → Option Bytes} :
    alongHops (relay :: hops) input = some last ↔ ∃ next, relay input = some next ∧ alongHops hops next = some last :=
  bind_eq_some_iff

theorem relayObject_same {arrivedFrom : Key} (run : relayObject state db input arrivedFrom = some last) :
    last = input := by
  unfold relayObject at run
  split at run
  · exact (some.inj run).symm
  · cases run

theorem relayStatus_encoded {ι σ ρ : Type} {cbor : Ciborium} {cls : StatusClass ι σ ρ} {host : Host} {s : StatusDb}
    {admits : Bool} (decodes : host.platform.decodeSignedObject input = some (payload, signature))
    (run : relayStatus cbor cls host s admits input = some last) : last = encodeSignedObject cbor payload signature := by
  rw [relayStatus, decodes, bind_eq_bind, bind_some] at run
  cases applied : applyOneStatus cls host s input with
  | error failed =>
    rw [applied] at run
    cases run
  | ok result =>
    rw [applied] at run
    exact (some.inj (ite_none_right_eq_some.mp run).2).symm

/-- A handler of content, or one of statuses, that reads the frame as the library does. -/
inductive Relays (cbor : Ciborium) : (Bytes → Option Bytes) → Prop
  | content (state : AppState) (db : Db) (arrivedFrom : Key) :
      Relays cbor fun wireBytes => relayObject state db wireBytes arrivedFrom
  | status {ι σ ρ : Type} (cls : StatusClass ι σ ρ) (host : Host) (s : StatusDb) (admits : Bool) :
      host.platform.decodeSignedObject = decodeSignedObject cbor → Relays cbor (relayStatus cbor cls host s admits)

/-- An encoded object stays as it is on every way, through handlers of either kind. -/
theorem alongHops_encoded {cbor : Ciborium} (stops : cbor.StopsAfter) (fits : FitsHead payload signature)
    (relays : ∀ relay ∈ hops, Relays cbor relay)
    (run : alongHops hops (encodeSignedObject cbor payload signature) = some last) :
    last = encodeSignedObject cbor payload signature := by
  induction hops with
  | nil => exact (some.inj run).symm
  | cons relay hops ih =>
    obtain ⟨next, relayed, onward⟩ := alongHops_cons.mp run
    have kept : next = encodeSignedObject cbor payload signature := by
      cases relays relay mem_cons_self with
      | content => exact relayObject_same relayed
      | status cls host s admits reads =>
        refine relayStatus_encoded ?_ relayed
        rw [reads]
        exact decodeSignedObject_encode stops.faithful fits.1 fits.2
    rw [kept] at onward
    exact ih (fun relay later => relays relay (mem_cons_of_mem _ later)) onward

theorem applyOneObject_forms (decodes : state.platform.decodeSignedObject input = some (payload, signature))
    (decodes' : state.platform.decodeSignedObject other = some (payload, signature))
    (small : input.length ≤ maxPostrevSize) (small' : other.length ≤ maxPostrevSize) (arrivedFrom : Key) :
    applyOneObject state db input arrivedFrom = applyOneObject state db other arrivedFrom := by
  rw [applyOneObject, applyOneObject, if_neg (Nat.not_lt.mpr small), if_neg (Nat.not_lt.mpr small'), decodes, decodes']

end Relays

/-- An encoded object is read back; what is read is a map of its two keys in either order, whatever comes after it. All
these forms of an object have one effect. Content is passed on in the form that came; statuses leave the first instance
encoded, and stay so on every hop. -/
theorem wire_forms {cbor : Ciborium} (stops : cbor.StopsAfter) : (∀ payload signature, FitsHead payload signature →
      decodeSignedObject cbor (encodeSignedObject cbor payload signature) = some (payload, signature)) ∧
    (∀ input payload signature, decodeSignedObject cbor input = some (payload, signature) ↔
      cbor.fromReader input = some (signedObjectMap payload signature) ∨
        cbor.fromReader input = some (turnedMap payload signature)) ∧
    (∀ payload signature rest, FitsHead payload signature →
      decodeSignedObject cbor (encodeSignedObject cbor payload signature ++ rest) = some (payload, signature) ∧
      decodeSignedObject cbor (cbor.intoWriter (turnedMap payload signature) ++ rest) = some (payload, signature)) ∧
    (∀ (state : AppState) db arrivedFrom input other payload signature,
      state.platform.decodeSignedObject = decodeSignedObject cbor →
      decodeSignedObject cbor input = some (payload, signature) →
      decodeSignedObject cbor other = some (payload, signature) →
      input.length ≤ maxPostrevSize → other.length ≤ maxPostrevSize →
      applyOneObject state db input arrivedFrom = applyOneObject state db other arrivedFrom) ∧
    (∀ (state : AppState) db arrivedFrom input last, relayObject state db input arrivedFrom = some last → last = input) ∧
    (∀ {ι σ ρ : Type} (cls : StatusClass ι σ ρ) host s admits hops input last payload signature,
      host.platform.decodeSignedObject = decodeSignedObject cbor →
      decodeSignedObject cbor input = some (payload, signature) → FitsHead payload signature →
      (∀ relay ∈ hops, Relays cbor relay) → alongHops (relayStatus cbor cls host s admits :: hops) input = some last →
      last = encodeSignedObject cbor payload signature) := by
  refine ⟨fun payload signature fits => ?_, fun _ _ _ => decodeSignedObject_iff, fun payload signature rest fits => ?_,
    fun state db arrivedFrom input other payload signature reads decodes decodes' small small' => ?_,
    fun state db arrivedFrom input last run => relayObject_same run,
    fun cls host s admits hops input last payload signature reads decodes fits relays run => ?_⟩
  · exact decodeSignedObject_encode stops.faithful fits.1 fits.2
  · exact ⟨decodeSignedObject_followed stops fits rest, decodeSignedObject_turned stops fits rest⟩
  · rw [← reads] at decodes decodes'
    exact applyOneObject_forms decodes decodes' small small' arrivedFrom
  · obtain ⟨next, relayed, onward⟩ := alongHops_cons.mp run
    rw [← reads] at decodes
    rw [relayStatus_encoded decodes relayed] at onward
    exact alongHops_encoded stops fits relays onward

theorem shortestCbor_stopsAfter : shortestCbor.StopsAfter := by
  intro value plain rest
  simp only [shortestCbor, decode_encode plain rest, map_some]

/-- A payload of two bytes and its signature. -/
def smallObject : Bytes × Bytes :=
  ([1, 2], List.replicate 64 0)

theorem smallObject_fits : FitsHead smallObject.1 smallObject.2 := by
  rw [FitsHead]
  decide

theorem small_object_read_back :
    decodeSignedObject shortestCbor (encodeSignedObject shortestCbor smallObject.1 smallObject.2) = some smallObject :=
  (wire_forms shortestCbor_stopsAfter).1 _ _ smallObject_fits

/-- A byte after the object, and its keys the other way around, change nothing that is read. -/
theorem small_object_three_forms :
    let canonical := encodeSignedObject shortestCbor smallObject.1 smallObject.2
    let turned := shortestCbor.intoWriter (turnedMap smallObject.1 smallObject.2)
    decodeSignedObject shortestCbor canonical = some smallObject ∧
      decodeSignedObject shortestCbor (canonical ++ [0]) = some smallObject ∧ canonical ++ [0] ≠ canonical ∧
      decodeSignedObject shortestCbor turned = some smallObject ∧ turned ≠ canonical := by
  intro canonical turned
  refine ⟨?_, decodeSignedObject_followed shortestCbor_stopsAfter smallObject_fits [0], by simp, ?_, ?_⟩
  · exact decodeSignedObject_encode shortestCbor_faithful smallObject_fits.1 smallObject_fits.2
  · have read := decodeSignedObject_turned shortestCbor_stopsAfter smallObject_fits []
    rwa [append_nil] at read
  · intro same
    have turnedRead := shortestCbor_stopsAfter _ (plain_turnedMap smallObject_fits) []
    have canonicalRead := shortestCbor_stopsAfter _ (plain_signedObjectMap smallObject_fits) []
    rw [append_nil] at turnedRead canonicalRead
    have equal := turnedRead.symm.trans ((congrArg shortestCbor.fromReader same).trans canonicalRead)
    simp [turnedMap, signedObjectMap] at equal

end Prismoire
