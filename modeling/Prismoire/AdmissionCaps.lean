import Mathlib
import Prismoire.AgeOrder
import Prismoire.Lib.Best

namespace Prismoire

open Lib List Option

section Rank

variable {a b : Admission}

/-- No attested age is at the bottom, and an older account is higher. -/
def genesisRank : Option Int → WithBot ℤᵒᵈ
  | none => ⊥
  | some age => (OrderDual.toDual age : ℤᵒᵈ)

/-- The three levels of the order as one. -/
def Admission.rank (a : Admission) : ℕ ×ₗ WithBot ℤᵒᵈ ×ₗ ℕ :=
  toLex (a.forwardScore.toNat, toLex (genesisRank a.genesisAt, a.truster.toNat))

theorem compareGenesis_eq (a b : Option Int) : compareGenesis a b = compare (genesisRank a) (genesisRank b) := by
  cases a with
  | none =>
    cases b with
    | none => exact (compare_eq_iff_eq.mpr rfl).symm
    | some y => exact (compare_lt_iff_lt.mpr (WithBot.bot_lt_coe _)).symm
  | some x =>
    cases b with
    | none => exact (compare_gt_iff_gt.mpr (WithBot.bot_lt_coe _)).symm
    | some y =>
      have turned : genesisRank (some x) < genesisRank (some y) ↔ y < x := WithBot.coe_lt_coe
      have back : genesisRank (some y) < genesisRank (some x) ↔ x < y := WithBot.coe_lt_coe
      rw [compareGenesis]
      rcases lt_trichotomy x y with less | equal | greater
      · rw [compare_gt_iff_gt.mpr less, compare_gt_iff_gt.mpr (back.mpr less)]
      · rw [equal, compare_eq_iff_eq.mpr rfl, compare_eq_iff_eq.mpr rfl]
      · rw [compare_lt_iff_lt.mpr greater, compare_lt_iff_lt.mpr (turned.mpr greater)]

theorem desirability_eq : a.desirability b = compare a.rank b.rank := by
  have score : compare a.forwardScore b.forwardScore = compare a.forwardScore.toNat b.forwardScore.toNat := by
    show compareOfLessAndEq _ _ = compareOfLessAndEq _ _
    simp only [compareOfLessAndEq, UInt64.lt_iff_toNat_lt, UInt64.toNat_inj]
  rw [Admission.desirability, score, compareGenesis_eq, Ordering.then_assoc]
  rfl

theorem desirability_gt : a.desirability b = .gt ↔ b.rank < a.rank := by
  rw [desirability_eq, compare_gt_iff_gt]

theorem desirability_lt : (a.desirability b == .lt) = decide (a.rank < b.rank) := by
  rw [desirability_eq, Bool.eq_iff_iff, beq_iff_eq, decide_eq_true_iff, compare_lt_iff_lt]

theorem rank_truster (same : a.rank = b.rank) : a.truster = b.truster :=
  BitVec.eq_of_toNat_eq (congrArg (fun rank => (ofLex (ofLex rank).2).2) same)

end Rank

namespace AdmissionCap

def wouldAdmit (set : AdmissionCap) (adm : Admission) : Bool :=
  if set.cap = 0 then false
  else if set.heap.length < set.cap then true
  else match set.worstAdmitted with
    | some worst => adm.desirability worst == .gt
    | none => true

def offerAll (cap : Nat) (offers : List Admission) : AdmissionCap :=
  offers.foldl (fun set adm => (set.tryAdmit adm).1) { cap }

variable {set : AdmissionCap} {adm worst : Admission} {cap : Nat} {offers : List Admission}

theorem worstAdmitted_spec (some_ : set.heap ≠ []) :
    ∃ worst ∈ set.heap, set.worstAdmitted = some worst ∧ ∀ other ∈ set.heap, worst.rank ≤ other.rank := by
  rw [worstAdmitted]
  simp only [desirability_lt]
  obtain ⟨worst, mem, found, least⟩ := @firstBy_spec Admission (fun a b => decide (a.rank < b.rank)) set.heap
    (fun a b c first second => decide_eq_true ((of_decide_eq_true first).trans (of_decide_eq_true second)))
    (fun a => decide_eq_false (lt_irrefl a.rank)) some_
  exact ⟨worst, mem, found, fun other inHeap => not_lt.mp (of_decide_eq_false (least other inHeap))⟩

theorem heap_ne_nil (open_ : set.cap ≠ 0) (full : ¬ set.heap.length < set.cap) : set.heap ≠ [] := by
  intro empty
  rw [empty, length_nil] at full
  omega

theorem wouldAdmit_eq (set : AdmissionCap) (adm : Admission) : set.wouldAdmit adm = (set.tryAdmit adm).2 := by
  rw [wouldAdmit, tryAdmit]
  split
  · rfl
  · split
    · rfl
    · rename_i open_ full
      obtain ⟨worst, -, found, -⟩ := worstAdmitted_spec (heap_ne_nil open_ full)
      rw [found]
      dsimp only
      by_cases better : adm.desirability worst = .gt
      · rw [if_pos better, better]
        rfl
      · rw [if_neg better]
        exact beq_eq_false_iff_ne.mpr better

theorem tryAdmit_cap (set : AdmissionCap) (adm : Admission) : (set.tryAdmit adm).1.cap = set.cap := by
  rw [tryAdmit]
  split
  · rfl
  · split
    · rfl
    · split
      · rfl
      · split <;> rfl

theorem tryAdmit_mem (absent : adm ∉ set.heap) : (set.tryAdmit adm).2 = true ↔ adm ∈ (set.tryAdmit adm).1.heap := by
  rw [tryAdmit]
  split
  · simp [absent]
  · split
    · simp
    · split
      · simp [absent]
      · split
        · simp
        · simp [absent]

theorem tryAdmit_keeps {rejected : List Admission} (keeps : KeepsBest Admission.rank set.cap set.heap rejected offers)
    (distinct : ((offers ++ [adm]).map (·.truster)).Nodup) :
    ∃ rejected, KeepsBest Admission.rank set.cap (set.tryAdmit adm).1.heap rejected (offers ++ [adm]) := by
  rw [map_append, nodup_append] at distinct
  obtain ⟨old, -, fresh⟩ := distinct
  have inOffers : ∀ held ∈ set.heap, held ∈ offers :=
    fun held mem => keeps.split.mem_iff.mp (mem_append_left _ mem)
  have apart : ∀ held ∈ set.heap, adm.rank ≠ held.rank := fun held mem same =>
    fresh _ (List.mem_map_of_mem (inOffers held mem)) _ mem_cons_self (rank_truster same).symm
  have once : set.heap.Nodup :=
    ((keeps.split.nodup_iff.mpr (List.Nodup.of_map _ old)).sublist (sublist_append_left _ _))
  rw [tryAdmit]
  split
  · rename_i closed
    have empty : set.heap = [] := length_eq_zero_iff.mp (Nat.le_zero.mp (closed ▸ keeps.fits))
    exact ⟨_, keeps.reject (by rw [empty, closed]; rfl) (by simp [empty])⟩
  · split
    · rename_i room
      exact ⟨_, keeps.push room adm⟩
    · rename_i open_ full
      have isFull : set.heap.length = set.cap := le_antisymm keeps.fits (not_lt.mp full)
      obtain ⟨worst, inHeap, found, least⟩ := worstAdmitted_spec (heap_ne_nil open_ full)
      rw [found]
      dsimp only
      split
      · rename_i better
        refine ⟨_, keeps.displace isFull inHeap (fun held mem => ?_) (desirability_gt.mp better)⟩
        obtain ⟨other, stays⟩ := once.mem_erase_iff.mp mem
        refine lt_of_le_of_ne (least held stays) fun same => other ?_
        exact inj_on_of_nodup_map old (inOffers held stays) (inOffers worst inHeap) (rank_truster same).symm
      · rename_i loses
        refine ⟨_, keeps.reject isFull fun held mem => lt_of_le_of_ne ?_ (apart held mem)⟩
        exact (not_lt.mp (desirability_gt.not.mp loses)).trans (least held mem)

theorem offerAll_keeps (distinct : (offers.map (·.truster)).Nodup) : (offerAll cap offers).cap = cap ∧
    ∃ rejected, KeepsBest Admission.rank (offerAll cap offers).cap (offerAll cap offers).heap rejected offers := by
  induction offers using List.reverseRecOn with
  | nil => exact ⟨rfl, [], .nil _ _⟩
  | append_singleton offers adm ih =>
    have before := distinct
    rw [map_append, nodup_append] at before
    obtain ⟨sameCap, rejected, keeps⟩ := ih before.1
    have next : offerAll cap (offers ++ [adm]) = ((offerAll cap offers).tryAdmit adm).1 := by
      rw [offerAll, foldl_append]
      rfl
    rw [next, tryAdmit_cap]
    exact ⟨sameCap, tryAdmit_keeps keeps distinct⟩

/-- A set that has kept the best of its offers, whatever their order was. -/
structure Best (set : AdmissionCap) (offers : List Admission) : Prop where
  admitted : ∀ adm, adm ∈ set.heap ↔ adm ∈ offers ∧ offers.countP (·.desirability adm = .gt) < set.cap
  once : set.heap.Nodup
  filled : set.heap.length = min set.cap offers.length
  worst : ∀ worst, set.worstAdmitted = some worst ↔
    worst ∈ set.heap ∧ ∀ other ∈ set.heap, other ≠ worst → other.desirability worst = .gt

theorem offerAll_best (distinct : (offers.map (·.truster)).Nodup) : (offerAll cap offers).Best offers := by
  obtain ⟨-, rejected, keeps⟩ := @offerAll_keeps cap offers distinct
  have inOffers : ∀ held ∈ (offerAll cap offers).heap, held ∈ offers :=
    fun held mem => (keeps.mem_iff.mp mem).1
  refine ⟨fun adm => ?_, ?_, ?_, fun worst => ⟨fun found => ?_, ?_⟩⟩
  · simp only [desirability_gt]
    exact keeps.mem_iff
  · exact (keeps.split.nodup_iff.mpr (List.Nodup.of_map _ distinct)).sublist (sublist_append_left _ _)
  · exact keeps.length
  · have inHeap := mem_of_firstBy found
    obtain ⟨least, -, isLeast, below⟩ := worstAdmitted_spec (ne_nil_of_mem inHeap)
    obtain rfl : least = worst := some.inj (isLeast.symm.trans found)
    refine ⟨inHeap, fun other mem differs => desirability_gt.mpr ?_⟩
    refine lt_of_le_of_ne (below other mem) fun same => differs ?_
    exact inj_on_of_nodup_map distinct (inOffers other mem) (inOffers least inHeap) (rank_truster same).symm
  · rintro ⟨inHeap, others⟩
    obtain ⟨least, mem, isLeast, below⟩ := worstAdmitted_spec (ne_nil_of_mem inHeap)
    by_cases same : least = worst
    · rw [isLeast, same]
    · exact absurd (desirability_gt.mp (others least mem same)) (not_lt.mpr (below worst inHeap))

end AdmissionCap

/-- A set is the best of what it was offered, and an offer is answered by whether it is in the set then. -/
theorem admission_cap_keeps_best {offers : List Admission} (cap : Nat) (distinct : (offers.map (·.truster)).Nodup) :
    let set := AdmissionCap.offerAll cap offers
    set.cap = cap ∧ set.Best offers ∧
      (∀ others, offers.Perm others → set.heap.Perm (AdmissionCap.offerAll cap others).heap) ∧
      ∀ adm, adm.truster ∉ offers.map (·.truster) →
        set.wouldAdmit adm = (set.tryAdmit adm).2 ∧ ((set.tryAdmit adm).2 = true ↔ adm ∈ (set.tryAdmit adm).1.heap) := by
  intro set
  have best := @AdmissionCap.offerAll_best cap offers distinct
  have sameCap := (@AdmissionCap.offerAll_keeps cap offers distinct).1
  refine ⟨sameCap, best, ?_, ?_⟩
  · intro others shuffled
    have distinctOthers := (shuffled.map (·.truster)).nodup_iff.mp distinct
    have bestOthers := @AdmissionCap.offerAll_best cap others distinctOthers
    have otherCap := (@AdmissionCap.offerAll_keeps cap others distinctOthers).1
    refine (perm_ext_iff_of_nodup best.once bestOthers.once).mpr fun adm => ?_
    rw [best.admitted, bestOthers.admitted, sameCap, otherCap, shuffled.mem_iff, shuffled.countP_eq]
  · intro adm fresh
    refine ⟨set.wouldAdmit_eq adm, AdmissionCap.tryAdmit_mem fun held => fresh ?_⟩
    exact List.mem_map_of_mem ((best.admitted adm).mp held).1

theorem admission_cap_keeps_two :
    let set := AdmissionCap.offerAll 2 [⟨1, 0, some 300⟩, ⟨2, 5, none⟩, ⟨3, 0, some 200⟩]
    set.cap = 2 ∧ set.Best [⟨1, 0, some 300⟩, ⟨2, 5, none⟩, ⟨3, 0, some 200⟩] ∧
      set.heap.Perm (AdmissionCap.offerAll 2 [⟨3, 0, some 200⟩, ⟨1, 0, some 300⟩, ⟨2, 5, none⟩]).heap ∧
      set.wouldAdmit ⟨4, 0, none⟩ = (set.tryAdmit ⟨4, 0, none⟩).2 := by
  obtain ⟨cap, best, shuffled, answers⟩ := @admission_cap_keeps_best
    [⟨1, 0, some 300⟩, ⟨2, 5, none⟩, ⟨3, 0, some 200⟩] 2 (by decide)
  exact ⟨cap, best, shuffled _ (by decide), (answers _ (by decide)).1⟩

/-- A peer that has the ceiling of a set sheds what the set would take exactly where a better score makes up for
the age. -/
theorem shed_refused_iff {offers : List Admission} {cap : Nat} {cutoff : Int} {adm : Admission}
    (ceiling : deriveAgeCeiling (AdmissionCap.offerAll cap offers) = some cutoff)
    (shed : ceilingAdmits cutoff adm.genesisAt = false) :
    (AdmissionCap.offerAll cap offers).wouldAdmit adm = false ↔
      ∀ worst, (AdmissionCap.offerAll cap offers).worstAdmitted = some worst → adm.forwardScore ≤ worst.forwardScore := by
  generalize AdmissionCap.offerAll cap offers = set at ceiling
  rw [deriveAgeCeiling] at ceiling
  split at ceiling
  · cases ceiling
  · rename_i isFull
    obtain ⟨worst, found, attested⟩ := bind_eq_some_iff.mp ceiling
    rw [not_not, AdmissionCap.isFull, Bool.and_eq_true, decide_eq_true_eq, decide_eq_true_eq] at isFull
    rw [AdmissionCap.wouldAdmit, if_neg isFull.1, if_neg (not_lt.mpr isFull.2), found]
    have younger : genesisRank adm.genesisAt < genesisRank worst.genesisAt := by
      rw [attested]
      cases born : adm.genesisAt with
      | none => exact WithBot.bot_lt_coe _
      | some age =>
        rw [born, ceilingAdmits, decide_eq_false_iff_not, not_le] at shed
        exact WithBot.coe_lt_coe.mpr (OrderDual.toDual_lt_toDual.mpr shed)
    simp only [some.injEq, forall_eq', beq_eq_false_iff_ne]
    rw [ne_eq, desirability_gt, Admission.rank, Admission.rank, Prod.Lex.toLex_lt_toLex, Prod.Lex.toLex_lt_toLex,
      UInt64.le_iff_toNat_le]
    have level : ¬ genesisRank worst.genesisAt < genesisRank adm.genesisAt := younger.asymm
    have unlike : genesisRank worst.genesisAt ≠ genesisRank adm.genesisAt := younger.ne'
    simp only [level, unlike, false_and, or_false, and_false, not_lt]

theorem shed_refused_newcomer :
    deriveAgeCeiling (AdmissionCap.offerAll 1 [⟨1, 0, some 100⟩]) = some 100 ∧ ceilingAdmits 100 (some 200) = false ∧
      (AdmissionCap.offerAll 1 [⟨1, 0, some 100⟩]).wouldAdmit ⟨2, 0, some 200⟩ = false :=
  ⟨by decide, by decide, (@shed_refused_iff [⟨1, 0, some 100⟩] 1 100 ⟨2, 0, some 200⟩ (by decide) (by decide)).mpr
    (by decide)⟩

/-- The edge of a newcomer that the reader trusts is shed, though the reader would drop a stranger for it. -/
theorem trusted_newcomer_shed : ¬ ∀ (cap : Nat) (offers : List Admission) (cutoff : Int) (adm : Admission),
      deriveAgeCeiling (AdmissionCap.offerAll cap offers) = some cutoff →
      ceilingAdmits cutoff adm.genesisAt = false → (AdmissionCap.offerAll cap offers).wouldAdmit adm = false := by
  intro sheds
  have refused := sheds 1 [⟨1, 0, some 100⟩] 100 ⟨2, 1, some 200⟩ (by decide) (by decide)
  exact absurd refused (by decide)

end Prismoire
