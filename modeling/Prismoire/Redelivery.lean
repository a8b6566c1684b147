import Mathlib.Data.List.Infix
import Prismoire.ErasedContent
import Prismoire.IngestTotality

namespace Prismoire

open Lib List Option Db

variable {state : AppState} {corpus : Corpus} {meets : Db → Bytes → Key → Prop} {live : Bool} {db after later : Db}
  {wireBytes : Bytes}

theorem Reachable.effects (reached : Reachable state corpus meets db)
    (steps : Relation.ReflTransGen (InstanceStep state corpus meets) db later) :
    Reachable state corpus meets later ∧ Effects state corpus false db later := by
  induction steps with
  | refl => exact ⟨reached, .refl⟩
  | tail _ step ih => exact ⟨ih.1.step step, ih.2.trans (step.effects ih.1.sound)⟩

theorem Effect.log_grows (effect : Effect state corpus live db after) :
    db.signedObjects.map (·.canonicalHash) <+: after.signedObjects.map (·.canonicalHash) := by
  obtain ⟨stored, _, _, _, -, -, rfl⟩ | ⟨_, _, -, run⟩ | same := effect.objects
  · cases present : db.hasObject (state.platform.sha256 stored) with
    | true =>
      rw [storeSignedObject_of_present present]
    | false =>
      rw [storeSignedObject_of_absent present]
      exact (prefix_append _ _).map _
  · rw [erasePayloads_frame run]
    show _ <+: (updateWhere _ _ _).map _
    rw [map_updateWhere SignedObjectRow.canonicalHash (by intro row; rfl)]
  · rw [same]

theorem Effects.log_grows (effects : Effects state corpus live db after) :
    db.signedObjects.map (·.canonicalHash) <+: after.signedObjects.map (·.canonicalHash) := by
  induction effects with
  | refl => exact prefix_rfl
  | tail _ effect ih => exact ih.trans effect.log_grows

/-- The log of signed objects keeps its order and only grows, and no erased payload comes back. -/
theorem signed_log_append_only (reached : Reachable state corpus meets db)
    (steps : Relation.ReflTransGen (InstanceStep state corpus meets) db later) :
    db.signedObjects.map (·.canonicalHash) <+: later.signedObjects.map (·.canonicalHash) ∧
      ∀ payload, db.hasObject (state.platform.sha256 payload) = true → HeldLive state.platform later payload →
        HeldLive state.platform db payload := by
  obtain ⟨-, effects⟩ := reached.effects steps
  exact ⟨effects.log_grows, fun payload known => effects.no_revival known⟩

/-- A retracted post is delivered once more. -/
theorem erased_post_redelivered :
    let later := deliverObject retractState (afterRetract [4]) [2] 9
    (afterRetract [4]).signedObjects.map (·.canonicalHash) <+: later.signedObjects.map (·.canonicalHash) ∧
      ¬ HeldLive retractState.platform later [2] := by
  intro later
  have posted : Reachable retractState (fun _ => True) (fun _ _ _ => True) postedDb :=
    Reachable.deliverObjects .start fun _ _ _ _ _ => trivial
  have reached := posted.step (.content [4] 8 (fun _ _ _ => trivial) trivial)
  obtain ⟨grows, once⟩ := signed_log_append_only reached (.single (.content [2] 9 (fun _ _ _ => trivial) trivial))
  exact ⟨grows, fun live => absurd (once [2] (by decide) live) (by decide)⟩

theorem ingestObject_stored {payload signature : Bytes} {object : SignedPayload} {arrivedFrom : Key}
    (sound : Sound state corpus db) (occurs : corpus payload)
    (admitted : admitObject state.platform payload signature = .ok object)
    (absent : db.hasObject (state.platform.sha256 payload) = false)
    (run : ingestObject state db payload signature arrivedFrom object = .ok (.applied, after)) :
    after.hasObject (state.platform.sha256 payload) = true := by
  obtain ⟨-, other⟩ | ⟨a, rfl, applied⟩ | ⟨cls, key, classed, -, handled⟩ := ingestObject_ok run
  · cases other
  · obtain ⟨-, -, erased, erasedRun, rfl⟩ := applyAdminRm_applied occurs (admitObject_ok admitted).1 applied
    have erases : Effect state corpus true _ erased := erasePostRevPayloads_effect erasedRun
    exact erases.object_stays hasObject_stored
  · exact (handled.effects sound (Filed.of_admitted occurs admitted classed) classed absent).object_stays hasObject_stored

/--
An object is applied once in a run: whatever happens after that, and whoever brings it again, it is known, or known
to be erased, and changes nothing.
-/
theorem applied_at_most_once {first second : Key} {result : ContentResult}
    (reached : Reachable state corpus (fun _ _ _ => True) db) (occurs : Occurs state corpus wireBytes)
    (run : applyOneObject state db wireBytes first = .ok (result, after)) (applied : result.status = .applied)
    (steps : Relation.ReflTransGen (InstanceStep state corpus fun _ _ _ => True) after later) :
    ∃ status, (status = .duplicate ∨ status = .rejected .erased) ∧
      applyOneObject state later wireBytes second = .ok (⟨result.canonicalHash, status⟩, later) := by
  have delivered : deliverObject state db wireBytes first = after := by rw [deliverObject, run]
  have reachedAfter := reached.step (.content wireBytes first occurs trivial)
  rw [delivered] at reachedAfter
  obtain ⟨-, other, -⟩ | ⟨payload, signature, object, decodes, admitted, hashed, absent, -, ingested⟩ :=
    applyOneObject_ok run
  · exact absurd applied other
  · rw [applied] at ingested
    have stored := ingestObject_stored reached.sound (occurs _ _ decodes) admitted absent ingested
    have known := (reachedAfter.effects steps).2.object_stays stored
    obtain ⟨row, found⟩ := isSome_iff_exists.mp (find?_isSome.mpr (List.any_eq_true.mp known))
    have small : ¬ maxPostrevSize < wireBytes.length := by
      intro large
      rw [applyOneObject, if_pos large] at run
      cases run
      cases applied
    refine ⟨if row.erased || row.payload.isNone then .rejected .erased else .duplicate, ?_, ?_⟩
    · split
      · exact .inr rfl
      · exact .inl rfl
    · simp only [applyOneObject, if_neg small, decodes, knownStatus, found, map_some, hashed]

theorem revision_applied_once : ∃ status, (status = .duplicate ∨ status = .rejected .erased) ∧
    applyOneObject revisionState (revisedDb [0, 1, 2]) [1] 9 =
      .ok (⟨revisionState.platform.sha256 [1], status⟩, revisedDb [0, 1, 2]) := by
  have reached : Reachable revisionState (fun _ => True) (fun _ _ _ => True) (revisedDb [0]) :=
    revisedDb_reachable fun _ _ => trivial
  exact @applied_at_most_once revisionState _ _ (revisedDb [0, 1]) _ [1] 8 9 ⟨_, .applied⟩ reached
    (fun _ _ _ => trivial) rfl rfl (.single (.content [2] 8 (fun _ _ _ => trivial) trivial))

/-- Every row of a reachable database comes from an object that was signed, and its tables keep their keys and references. -/
theorem reachable_well_formed (reached : Reachable state corpus meets db) :
    Sound state corpus db ∧ Integrity state corpus db ∧ Orderly db :=
  ⟨reached.sound, reached.integrity, reached.orderly⟩

theorem revised_well_formed : Sound revisionState (fun _ => True) (revisedDb [0, 1, 2, 5]) ∧
    Integrity revisionState (fun _ => True) (revisedDb [0, 1, 2, 5]) ∧ Orderly (revisedDb [0, 1, 2, 5]) :=
  @reachable_well_formed _ _ (fun _ _ _ => True) _ (revisedDb_reachable fun _ _ => trivial)

end Prismoire
