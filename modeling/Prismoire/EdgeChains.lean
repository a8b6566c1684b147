import Prismoire.EdgeSweep

namespace Prismoire

open Lib List Option

/-- The edges `E₁, …, Eₙ` of one pair, each naming the hash of the one before it. -/
structure EdgeChain (platform : Platform) (source target : Key) where
  edges : List (SignedEdge platform)
  pair : ∀ e ∈ edges, e.edge.fromKey = source ∧ e.edge.toKey = target
  linked : Linked SignedEdge.hash SignedEdge.prior none edges
  distinct : (edges.map (·.hash)).Nodup

namespace EdgeChain

variable {platform : Platform} {source target : Key}

theorem hash_injective (chain : EdgeChain platform source target) {e f : SignedEdge platform}
    (inE : e ∈ chain.edges) (inF : f ∈ chain.edges) (same : e.hash = f.hash) : e = f :=
  inj_on_of_nodup_map chain.distinct inE inF same

variable {start : Option Hash} {i : Nat}

section

variable {edges : List (SignedEdge platform)} (linked : Linked SignedEdge.hash SignedEdge.prior start edges)
include linked

theorem linked_getElem (bound : i < edges.length) :
    (edges[i]).prior = (tip SignedEdge.hash (edges.take i)).or start := by
  induction edges generalizing start i with
  | nil => simp at bound
  | cons e rest ih =>
    cases i with
    | zero => simpa [tip] using linked.1
    | succ i =>
      have step := ih linked.2 (by simpa using bound)
      simp only [getElem_cons_succ, take_succ_cons, tip_cons]
      rw [step]
      cases tip SignedEdge.hash (rest.take i) <;> rfl

theorem linked_take (m : Nat) : Linked SignedEdge.hash SignedEdge.prior start (edges.take m) := by
  induction edges generalizing start m with
  | nil => simpa using linked
  | cons e rest ih =>
    cases m with
    | zero => trivial
    | succ m => exact ⟨linked.1, ih linked.2 m⟩

end

theorem prior_getElem (chain : EdgeChain platform source target)
    (bound : i < chain.edges.length) : (chain.edges[i]).prior = tip SignedEdge.hash (chain.edges.take i) := by
  rw [linked_getElem chain.linked bound, or_none]

theorem tip_take_succ {edges : List (SignedEdge platform)} (bound : i < edges.length) :
    tip SignedEdge.hash (edges.take (i + 1)) = some (edges[i]).hash := by
  rw [take_succ_eq_append_getElem bound, tip, getLast?_concat]
  rfl

section

variable (chain : EdgeChain platform source target)
include chain

section

variable {i j : Nat} (boundI : i < chain.edges.length) (boundJ : j < chain.edges.length)
include boundI boundJ

theorem getElem_inj (same : (chain.edges[i]).hash = (chain.edges[j]).hash) : i = j := by
  have boundI' : i < (chain.edges.map (·.hash)).length := by simpa using boundI
  have boundJ' : j < (chain.edges.map (·.hash)).length := by simpa using boundJ
  have equal : (chain.edges.map (·.hash))[i] = (chain.edges.map (·.hash))[j] := by simpa using same
  exact chain.distinct.getElem_inj_iff.mp equal

theorem take_tip_injective
    (same : tip SignedEdge.hash (chain.edges.take i) = tip SignedEdge.hash (chain.edges.take j)) : i = j := by
  cases i with
  | zero =>
    cases j with
    | zero => rfl
    | succ j =>
      rw [tip_take_succ (by omega)] at same
      simp [tip] at same
  | succ i =>
    cases j with
    | zero =>
      rw [tip_take_succ (by omega)] at same
      simp [tip] at same
    | succ j =>
      rw [tip_take_succ (by omega), tip_take_succ (by omega)] at same
      exact congrArg _ (chain.getElem_inj (by omega) (by omega) (some.inj same))

end

theorem forkFree : ForkFree source target chain.edges := by
  refine ⟨chain.pair, fun e inE f inF same => chain.hash_injective inE inF same, ?_⟩
  intro e inE f inF same
  obtain ⟨i, boundI, rfl⟩ := mem_iff_getElem.mp inE
  obtain ⟨j, boundJ, rfl⟩ := mem_iff_getElem.mp inF
  rw [chain.prior_getElem boundI, chain.prior_getElem boundJ] at same
  obtain rfl := chain.take_tip_injective boundI boundJ same
  rfl

theorem prefix_of_linked
    {active : List (SignedEdge platform)} (linked : Linked SignedEdge.hash SignedEdge.prior none active)
    (sub : ∀ e ∈ active, e ∈ chain.edges) :
    active.length ≤ chain.edges.length ∧ active = chain.edges.take active.length := by
  have prefixes : ∀ k, k ≤ active.length → k ≤ chain.edges.length ∧ active.take k = chain.edges.take k := by
    intro k
    induction k with
    | zero => simp
    | succ k ih =>
      intro bound
      obtain ⟨size, same⟩ := ih (by omega)
      obtain ⟨i, boundI, isI⟩ := mem_iff_getElem.mp (sub active[k] (getElem_mem (by omega)))
      have prior := linked_getElem linked (show k < active.length by omega)
      rw [or_none, same, ← isI, chain.prior_getElem boundI] at prior
      have atK : i = k := by
        rcases Nat.lt_or_ge k chain.edges.length with below | above
        · exact chain.take_tip_injective boundI below prior
        · have whole : chain.edges.take k = chain.edges.take (chain.edges.length - 1 + 1) := by
            rw [take_of_length_le above, take_of_length_le (by omega)]
          cases i with
          | zero =>
            rw [whole, tip_take_succ (by omega)] at prior
            simp [tip] at prior
          | succ i =>
            rw [whole, tip_take_succ (by omega), tip_take_succ (by omega)] at prior
            have := chain.getElem_inj (by omega) (by omega) (some.inj prior)
            omega
      subst atK
      refine ⟨boundI, ?_⟩
      rw [take_succ_eq_append_getElem (by omega), take_succ_eq_append_getElem boundI, same, isI]
  obtain ⟨size, same⟩ := prefixes active.length le_rfl
  exact ⟨size, by rw [← same, take_length]⟩

/--
A ledger of the chain after both endpoints are known: the edges in force are a prefix, the stored
ones beyond it were delivered early, the buffered ones were not.
-/
structure Holds (chain : EdgeChain platform source target) (early : Nat → Prop) (l : Ledger platform) :
    Prop where
  active : l.active = chain.edges.take l.active.length
  archived : ∀ i (bound : i < chain.edges.length),
    Ledger.holds l.archived (chain.edges[i]).hash = true ↔ early i ∧ l.active.length ≤ i
  buffered : ∀ e ∈ l.buffered, ∃ i, ∃ bound : i < chain.edges.length,
    e = chain.edges[i] ∧ ¬ early i ∧ l.active.length ≤ i

theorem mem_take {i m : Nat} (bound : i < chain.edges.length) :
    Ledger.holds (chain.edges.take m) (chain.edges[i]).hash = true ↔ i < m := by
  rw [Ledger.holds_iff]
  constructor
  · rintro ⟨e, inTake, same⟩
    obtain ⟨j, boundJ, rfl⟩ := mem_iff_getElem.mp inTake
    rw [length_take] at boundJ
    rw [getElem_take] at same
    have := chain.getElem_inj (by omega) bound same
    omega
  · intro below
    refine ⟨chain.edges[i], ?_, rfl⟩
    exact mem_iff_getElem.mpr ⟨i, by rw [length_take]; omega, getElem_take⟩

end

variable {chain : EdgeChain platform source target} {early : Nat → Prop} {l : Ledger platform}

section

variable (holds : chain.Holds early l)
include holds

theorem Holds.size : l.active.length ≤ chain.edges.length := by
  have := congrArg List.length holds.active
  rw [length_take] at this
  omega

theorem Holds.inForce {i : Nat} (bound : i < chain.edges.length) :
    Ledger.holds l.active (chain.edges[i]).hash = true ↔ i < l.active.length := by
  have := chain.mem_take bound (m := l.active.length)
  rwa [← holds.active] at this

theorem Holds.linked : tip SignedEdge.hash l.active = tip SignedEdge.hash (chain.edges.take l.active.length) := by
  rw [← holds.active]

section

variable {i : Nat} (bound : i < chain.edges.length) (beyond : l.active.length ≤ i)
include bound beyond

theorem Holds.atTip : (chain.edges[i]).prior = tip SignedEdge.hash l.active ↔ i = l.active.length := by
  rw [chain.prior_getElem bound, holds.linked]
  constructor
  · intro same
    exact chain.take_tip_injective bound (by omega) same
  · rintro rfl
    rfl

theorem Holds.grounded : l.grounded chain.edges[i] = true ↔ i = l.active.length := by
  have sub : ∀ e ∈ l.active, e ∈ chain.edges := by
    intro e inActive
    rw [holds.active] at inActive
    exact mem_of_mem_take inActive
  have fresh : Ledger.holds l.active (chain.edges[i]).hash = false := by
    rw [Bool.eq_false_iff]
    intro inForce
    have := (holds.inForce bound).mp inForce
    omega
  have linked : Linked SignedEdge.hash SignedEdge.prior none l.active := by
    rw [holds.active]
    exact linked_take chain.linked _
  rw [Ledger.grounded, Ledger.grounded_iff chain.forkFree linked sub (getElem_mem bound) fresh]
  exact holds.atTip bound beyond

end

theorem Holds.activate (room : l.active.length < chain.edges.length)
    (unbuffered : chain.edges[l.active.length] ∉ l.buffered) :
    chain.Holds early (l.activate chain.edges[l.active.length]) := by
  have size : (l.activate chain.edges[l.active.length]).active.length = l.active.length + 1 := by
    simp [Ledger.activate]
  refine ⟨?_, ?_, ?_⟩
  · rw [size, take_succ_eq_append_getElem room, ← holds.active]
    rfl
  · intro i bound
    rw [Ledger.archived_activate, holds.archived i bound, size]
    constructor
    · rintro ⟨⟨isEarly, beyond⟩, other⟩
      refine ⟨isEarly, ?_⟩
      rcases Nat.lt_or_ge l.active.length i with above | below
      · exact above
      · obtain rfl : i = l.active.length := by omega
        exact absurd rfl other
    · rintro ⟨isEarly, beyond⟩
      refine ⟨⟨isEarly, by omega⟩, ?_⟩
      intro same
      have := chain.getElem_inj bound room same
      omega
  · intro e inBuffer
    obtain ⟨i, bound, rfl, late, beyond⟩ := holds.buffered e inBuffer
    refine ⟨i, bound, rfl, late, ?_⟩
    rw [size]
    rcases Nat.lt_or_ge l.active.length i with above | below
    · exact above
    · obtain rfl : i = l.active.length := by omega
      exact absurd inBuffer unbuffered

theorem Holds.follow {current : Hash} (atTip : tip SignedEdge.hash l.active = some current) (fuel : Nat) :
    match Ledger.follow fuel l current with
    | some landed => chain.Holds early landed ∧ l.active.length ≤ landed.active.length ∧
        (∀ j (bound : j < chain.edges.length), l.active.length ≤ j → j < landed.active.length →
          chain.edges[j] ∈ l.buffered ∧ (chain.edges[j]).neutral = false) ∧
        (∀ e ∈ l.buffered, e ∈ landed.buffered ∨ Ledger.holds landed.active e.hash = true) ∧
        ∀ e ∈ landed.buffered, e ∈ l.buffered
    | none => ∃ k, ∃ bound : k < chain.edges.length,
        chain.edges[k] ∈ l.buffered ∧ (chain.edges[k]).neutral = true := by
  induction fuel generalizing l current with
  | zero =>
    exact ⟨holds, le_rfl, fun j _ lower upper => by omega, fun e inBuffer => .inl inBuffer,
      fun e inBuffer => inBuffer⟩
  | succ fuel ih =>
    cases found : l.buffered.find? (·.prior = some current) with
    | none =>
      simp only [Ledger.follow, found]
      exact ⟨holds, le_rfl, fun j _ lower upper => by omega, fun e inBuffer => .inl inBuffer,
        fun e inBuffer => inBuffer⟩
    | some next =>
      have inBuffer := mem_of_find?_eq_some found
      have isNext : next.prior = some current := by simpa using find?_some found
      obtain ⟨i, bound, rfl, late, beyond⟩ := holds.buffered next inBuffer
      obtain rfl := (holds.atTip bound beyond).mp (isNext.trans atTip.symm)
      simp only [Ledger.follow, found]
      cases neutral : (chain.edges[l.active.length]).neutral with
      | true => exact ⟨l.active.length, bound, inBuffer, neutral⟩
      | false =>
        simp only [Bool.false_eq_true, if_false]
        have trimmed : chain.Holds early { l with buffered := l.buffered.filter (·.prior ≠ some current) } :=
          ⟨holds.active, holds.archived, fun e inTrimmed => holds.buffered e (mem_filter.mp inTrimmed).1⟩
        have stepped := trimmed.activate bound (by
          intro inTrimmed
          have := (mem_filter.mp inTrimmed).2
          simp [isNext] at this)
        have size : (({ l with buffered := l.buffered.filter (·.prior ≠ some current) } :
            Ledger platform).activate chain.edges[l.active.length]).active.length =
            l.active.length + 1 := by
          simp [Ledger.activate]
        have tipNext : tip SignedEdge.hash (({ l with buffered := l.buffered.filter (·.prior ≠ some current) } :
            Ledger platform).activate chain.edges[l.active.length]).active =
            some (chain.edges[l.active.length]).hash := by
          simp [Ledger.activate, tip]
        have walked := ih stepped tipNext
        cases followed : Ledger.follow fuel (({ l with
            buffered := l.buffered.filter (·.prior ≠ some current) } : Ledger platform).activate
              chain.edges[l.active.length]) (chain.edges[l.active.length]).hash with
        | none =>
          rw [followed] at walked
          obtain ⟨k, boundK, inTrimmed, neutralK⟩ := walked
          exact ⟨k, boundK, (mem_filter.mp inTrimmed).1, neutralK⟩
        | some landed =>
          rw [followed] at walked
          obtain ⟨holdsLanded, longer, came, kept, sub⟩ := walked
          rw [size] at longer came
          refine ⟨holdsLanded, by omega, ?_, ?_, fun e inLanded => (mem_filter.mp (sub e inLanded)).1⟩
          · intro j boundJ lower upper
            rcases Nat.lt_or_ge l.active.length j with above | below
            · obtain ⟨inTrimmed, calm⟩ := came j boundJ above upper
              exact ⟨(mem_filter.mp inTrimmed).1, calm⟩
            · obtain rfl : j = l.active.length := by omega
              exact ⟨inBuffer, neutral⟩
          · intro e inOld
            by_cases isE : e.prior = some current
            · have same : e = chain.edges[l.active.length] := by
                obtain ⟨j, boundJ, rfl, -, -⟩ := holds.buffered e inOld
                exact chain.forkFree.linear _ (getElem_mem boundJ) _ (getElem_mem bound)
                  (isE.trans isNext.symm)
              right
              rw [same, holdsLanded.inForce bound]
              omega
            · exact kept e (mem_filter.mpr ⟨inOld, by simpa using isE⟩)

theorem Holds.land (waiting : l.Waiting) (room : l.active.length < chain.edges.length) :
    (l.land chain.edges[l.active.length] = l ∧ ∃ k, ∃ bound : k < chain.edges.length,
      chain.edges[k] ∈ l.buffered ∧ (chain.edges[k]).neutral = true) ∨
    (chain.Holds early (l.land chain.edges[l.active.length]) ∧
      l.active.length < (l.land chain.edges[l.active.length]).active.length ∧
      (∀ j (bound : j < chain.edges.length), l.active.length < j →
        j < (l.land chain.edges[l.active.length]).active.length →
        chain.edges[j] ∈ l.buffered ∧ (chain.edges[j]).neutral = false) ∧
      (∀ e ∈ l.buffered, e ∈ (l.land chain.edges[l.active.length]).buffered ∨
        Ledger.holds (l.land chain.edges[l.active.length]).active e.hash = true) ∧
      ∀ e ∈ (l.land chain.edges[l.active.length]).buffered, e ∈ l.buffered) := by
  have unbuffered : chain.edges[l.active.length] ∉ l.buffered := fun inBuffer =>
    waiting _ inBuffer ((holds.atTip room le_rfl).mpr rfl)
  have stepped := holds.activate room unbuffered
  have size : (l.activate chain.edges[l.active.length]).active.length = l.active.length + 1 := by
    simp [Ledger.activate]
  have atTip : tip SignedEdge.hash (l.activate chain.edges[l.active.length]).active =
      some (chain.edges[l.active.length]).hash := by
    simp [Ledger.activate, tip]
  have walked := stepped.follow atTip (l.buffered.length + 1)
  unfold Ledger.land
  cases followed : Ledger.follow (l.buffered.length + 1) (l.activate chain.edges[l.active.length])
      (chain.edges[l.active.length]).hash with
  | none =>
    rw [followed] at walked
    exact .inl ⟨rfl, walked⟩
  | some landed =>
    rw [followed] at walked
    obtain ⟨holdsLanded, longer, came, kept, sub⟩ := walked
    rw [size] at longer came
    exact .inr ⟨holdsLanded, longer, came, kept, sub⟩

end

/-- One delivery on the chain, at the level of positions. -/
structure Advance (chain : EdgeChain platform source target) (early : Nat → Prop) (l after : Ledger platform)
    (i : Nat) (bound : i < chain.edges.length) : Prop where
  holds : chain.Holds early after
  longer : l.active.length ≤ after.active.length
  direct : l.active.length < after.active.length → i = l.active.length
  came : ∀ j (_ : j < chain.edges.length), l.active.length ≤ j → j < after.active.length →
    j = i ∨ chain.edges[j] ∈ l.buffered
  refused : ∀ k (_ : k < chain.edges.length), 0 < k → ¬ early k → (chain.edges[k]).neutral = true →
    l.active.length ≤ k → after.active.length ≤ k
  kept : ∀ e ∈ l.buffered, e ∈ after.buffered ∨ Ledger.holds after.active e.hash = true
  newcomer : ∀ e ∈ after.buffered, e ∈ l.buffered ∨ e = chain.edges[i]
  lands : (∀ k (_ : k < chain.edges.length), 0 < k → (chain.edges[k]).neutral = true → early k) →
    (early i → i = l.active.length → i < after.active.length) ∧
    (¬ early i → i < after.active.length ∨ chain.edges[i] ∈ after.buffered)

theorem prior_isSome (chain : EdgeChain platform source target) {i : Nat}
    (bound : i < chain.edges.length) : (chain.edges[i]).prior.isSome = true ↔ 0 < i := by
  rw [chain.prior_getElem bound]
  cases i with
  | zero => simp [tip]
  | succ i => simp [tip_take_succ (show i < chain.edges.length by omega)]

theorem Holds.idle (holds : chain.Holds early l) {i : Nat} (bound : i < chain.edges.length)
    (lands : (∀ k (_ : k < chain.edges.length), 0 < k → (chain.edges[k]).neutral = true → early k) →
      (early i → i = l.active.length → i < l.active.length) ∧
      (¬ early i → i < l.active.length ∨ chain.edges[i] ∈ l.buffered)) :
    chain.Advance early l l i bound :=
  ⟨holds, le_rfl, fun more => by omega, fun j _ lower upper => by omega,
    fun k _ _ _ _ beyond => beyond, fun e inBuffer => .inl inBuffer, fun e inBuffer => .inl inBuffer, lands⟩

theorem Holds.landed (holds : chain.Holds early l) (waiting : l.Waiting) (room : l.active.length < chain.edges.length)
    (allowed : early l.active.length ∨ (chain.edges[l.active.length]).neutral = false ∨ l.active.length = 0) :
    chain.Advance early l (l.land chain.edges[l.active.length]) l.active.length room := by
  rcases holds.land waiting room with ⟨same, k, boundK, inBuffer, neutralK⟩ | ⟨holdsLanded, longer, came, kept, sub⟩
  · rw [same]
    obtain ⟨i, boundI, isI, late, beyond⟩ := holds.buffered _ inBuffer
    obtain rfl := chain.getElem_inj boundK boundI (congrArg _ isI)
    refine holds.idle room fun calm => ?_
    have positive : 0 < k := by
      rcases Nat.eq_zero_or_pos k with rfl | positive
      · have atTip := (holds.atTip boundK beyond).mpr (by omega)
        exact absurd atTip (waiting _ inBuffer)
      · exact positive
    exact absurd (calm k boundK positive neutralK) late
  · refine ⟨holdsLanded, by omega, fun _ => rfl, ?_, ?_, kept, fun e inLanded => .inl (sub e inLanded), ?_⟩
    · intro j boundJ lower upper
      rcases Nat.lt_or_ge l.active.length j with above | below
      · exact .inr (came j boundJ above upper).1
      · exact .inl (by omega)
    · intro k boundK positive late neutralK beyond
      by_contra landed
      rcases Nat.lt_or_ge l.active.length k with above | below
      · have calm := (came k boundK above (by omega)).2
        rw [neutralK] at calm
        cases calm
      · obtain rfl : k = l.active.length := by omega
        rcases allowed with isEarly | calm | root
        · exact late isEarly
        · rw [neutralK] at calm
          cases calm
        · omega
    · exact fun _ => ⟨fun _ _ => longer, fun _ => .inl longer⟩

theorem Holds.deliver (holds : chain.Holds early l) (waiting : l.Waiting) {i : Nat}
    (bound : i < chain.edges.length) : chain.Advance early l (l.deliver chain.edges[i]) i bound := by
  unfold Ledger.deliver
  cases inForce : Ledger.holds l.active (chain.edges[i]).hash with
  | true =>
    have below := (holds.inForce bound).mp inForce
    simp only [if_true]
    exact holds.idle bound fun _ => ⟨fun _ atEnd => by omega, fun _ => .inl below⟩
  | false =>
    have beyond : l.active.length ≤ i := by
      by_contra below
      have inside := (holds.inForce bound).mpr (by omega)
      rw [inForce] at inside
      cases inside
    have atEnd := holds.grounded bound beyond
    simp only [Bool.false_eq_true, if_false]
    cases stored : Ledger.holds l.archived (chain.edges[i]).hash with
    | true =>
      have isEarly := ((holds.archived i bound).mp stored).1
      simp only [if_true]
      cases ground : l.grounded chain.edges[i] with
      | true =>
        obtain rfl := atEnd.mp ground
        exact holds.landed waiting bound (.inl isEarly)
      | false =>
        simp only [Bool.false_eq_true, if_false]
        refine holds.idle bound fun _ => ⟨fun _ same => ?_, fun late => absurd isEarly late⟩
        rw [atEnd.mpr same] at ground
        cases ground
    | false =>
      have late : ¬ early i := by
        intro isEarly
        have held := (holds.archived i bound).mpr ⟨isEarly, beyond⟩
        rw [stored] at held
        cases held
      simp only [Bool.false_eq_true, if_false]
      cases ground : l.grounded chain.edges[i] with
      | true =>
        obtain rfl := atEnd.mp ground
        simp only [if_true]
        cases revokes : (chain.edges[l.active.length]).neutral && (chain.edges[l.active.length]).prior.isSome with
        | true =>
          rw [Bool.and_eq_true, chain.prior_isSome bound] at revokes
          simp only [if_true]
          exact holds.idle bound fun calm => absurd (calm _ bound revokes.2 revokes.1) late
        | false =>
          simp only [Bool.false_eq_true, if_false]
          refine holds.landed waiting bound (.inr ?_)
          rcases Bool.and_eq_false_iff.mp revokes with calm | root
          · exact .inl calm
          · right
            rw [Bool.eq_false_iff, ne_eq, chain.prior_isSome bound] at root
            omega
      | false =>
        simp only [Bool.false_eq_true, if_false]
        cases taken : l.buffered.any (·.prior = (chain.edges[i]).prior) with
        | true =>
          simp only [if_true]
          refine holds.idle bound fun _ => ⟨fun isEarly => absurd isEarly late, fun _ => .inr ?_⟩
          obtain ⟨f, inBuffer, samePrior⟩ := List.any_eq_true.mp taken
          obtain ⟨j, boundJ, rfl, -, -⟩ := holds.buffered f inBuffer
          rw [decide_eq_true_eq] at samePrior
          rwa [chain.forkFree.linear _ (getElem_mem boundJ) _ (getElem_mem bound) samePrior] at inBuffer
        | false =>
          simp only [Bool.false_eq_true, if_false]
          refine ⟨⟨holds.active, holds.archived, ?_⟩, le_rfl, fun more => absurd more (Nat.lt_irrefl _),
            fun j _ lower upper => absurd upper (Nat.not_lt.mpr lower), fun k _ _ _ _ beyond => beyond,
            fun e inBuffer => .inl (mem_append_left _ inBuffer), ?_, ?_⟩
          · exact forall_mem_concat.mpr ⟨holds.buffered, ⟨i, bound, rfl, late, beyond⟩⟩
          · intro e inBuffer
            exact (mem_append.mp inBuffer).imp id mem_singleton.mp
          · exact fun _ => ⟨fun isEarly => absurd isEarly late, fun _ => .inr (by simp)⟩

end EdgeChain

end Prismoire
