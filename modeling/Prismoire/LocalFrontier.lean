import Prismoire.FrontierVersions

namespace Prismoire

open Lib List Option FrontierStore

def FilterSpec.fromBloom (filter : BloomFilter) : FilterSpec where
  family := bloomFamily
  k := filter.k
  m := filter.m
  nEst := filter.nEst
  bytes := filter.bits

/-- The frontier that this instance publishes, less its cursor and the keys behind the filters. The
filters are sized by `build_bloom_from_keys` within the ranges of the format, they are counts of keys in
memory, and the clock is that of an era the columns can hold. -/
structure LocalFrontier where
  version : UInt64
  epochStart : UInt64
  visibleFilter : BloomFilter
  expansionFilter : BloomFilter
  ageCeilings : AgeCeilings
  epochFits : 0 ≤ asI64 epochStart.toNat
  visibleFits : (FilterSpec.fromBloom visibleFilter).checked = true
  expansionFits : (FilterSpec.fromBloom expansionFilter).checked = true

def emptyFilter : BloomFilter where
  k := 7
  m := minMBits
  nEst := 0
  bits := List.replicate 8 0

def LocalFrontier.empty (now : UInt64) (fits : 0 ≤ asI64 now.toNat) : LocalFrontier where
  version := 0
  epochStart := now
  visibleFilter := emptyFilter
  expansionFilter := emptyFilter
  ageCeilings := {}
  epochFits := fits
  visibleFits := by decide
  expansionFits := by decide

def filterBytesDiffer (a b : BloomFilter) : Bool :=
  a.k != b.k || a.m != b.m || a.bits != b.bits

/-- `saturating_add(1)`. -/
def saturatingSucc (x : UInt64) : UInt64 :=
  if x.toNat + 1 < 2 ^ 64 then x + 1 else x

def LocalFrontier.changed (prev next : LocalFrontier) : Bool :=
  filterBytesDiffer prev.visibleFilter next.visibleFilter ||
    filterBytesDiffer prev.expansionFilter next.expansionFilter

def LocalFrontier.refresh (prev next : LocalFrontier) : LocalFrontier :=
  if prev.changed next then { next with version := saturatingSucc prev.version } else prev

/-- The body of an announce; `NO_TRIMMING` is 0. -/
def LocalFrontier.announce (frontier : LocalFrontier) (mode : Mode) : FrontierAnnounce where
  version := frontier.version
  epochStart := frontier.epochStart
  activeHorizonDays := 0
  visibleFilter := FilterSpec.fromBloom frontier.visibleFilter
  expansionFilter := FilterSpec.fromBloom frontier.expansionFilter
  mode := mode
  ageCeilings := frontier.ageCeilings

def LocalFrontier.snapshot (frontier : LocalFrontier) : FrontierSnapshot where
  version := frontier.version
  epochStart := frontier.epochStart
  activeHorizonDays := 0
  visibleFilter := FilterSpec.fromBloom frontier.visibleFilter
  expansionFilter := FilterSpec.fromBloom frontier.expansionFilter
  ageCeilings := frontier.ageCeilings

inductive Published
  | announced (body : FrontierAnnounce)
  | served (snapshot : FrontierSnapshot)

def Published.request : Published → FrontierRequest
  | .announced body => .announce body
  | .served snapshot => .pull (some snapshot)

def Published.inbound : Published → FrontierAnnounce
  | .announced body => body
  | .served snapshot => snapshot.inbound

def Published.caller : Published → ApplyCaller
  | .announced _ => .announce
  | .served _ => .pull

/-- An instance, all that it ever published to one peer, and what that peer stores. -/
structure FrontierExchange where
  own : LocalFrontier
  published : List Published := []
  peer : FrontierStore := {}

/-- A step of the instance, or the peer getting to handle something published: none, some or all of it,
in any order, once or more often. -/
inductive ExchangeEvent
  | refresh (next : LocalFrontier)
  | announce (next : LocalFrontier) (mode : Mode)
  | serve
  | restart (now : UInt64) (fits : 0 ≤ asI64 now.toNat)
  | deliver (message : Nat) (coverage : Coverage)

namespace FrontierExchange

def step (exchange : FrontierExchange) : ExchangeEvent → FrontierExchange
  | .refresh next => { exchange with
      own := exchange.own.refresh next }
  | .announce next mode => { exchange with
      own := exchange.own.refresh next
      published := exchange.published ++ [.announced ((exchange.own.refresh next).announce mode)] }
  | .serve => { exchange with
      published := exchange.published ++ [.served exchange.own.snapshot] }
  | .restart now fits => { exchange with
      own := .empty now fits }
  | .deliver message coverage =>
    match exchange.published[message]? with
    | none => exchange
    | some message => { exchange with
        peer := (exchange.peer.handle coverage message.request).1 }

end FrontierExchange

variable {spec : FilterSpec}

theorem intoBloom_of_checked (family : spec.family = bloomFamily) (checked : spec.checked = true) :
    ∃ filter, spec.intoBloom = .ok filter := by
  simp only [FilterSpec.checked, Bool.and_eq_true, decide_eq_true_eq, beq_iff_eq] at checked
  obtain ⟨⟨⟨⟨⟨kLow, kHigh⟩, mLow⟩, mWhole⟩, -⟩, length⟩ := checked
  have mBound : ¬ (spec.m < minMBits ∨ maxMBits ≤ spec.m.toNat ∨ spec.m % 64 ≠ 0) := by
    rintro (low | high | odd)
    · exact absurd mLow (UInt32.not_le.mpr low)
    · have bound := spec.m.toNat_lt
      rw [maxMBits] at high
      omega
    · exact odd mWhole
  have kBound : minK ≤ spec.k ∧ spec.k ≤ maxK := ⟨kLow, kHigh⟩
  rw [FilterSpec.intoBloom, BloomFilter.fromParts]
  simp only [family, kBound, mBound, length, ne_eq, not_true_eq_false, if_false, and_self]
  exact ⟨_, rfl⟩

theorem toNat_asU64 {x : Int} (signed : 0 ≤ x) (bound : x < 2 ^ 64) : (asU64 x).toNat = x.toNat := by
  rw [asU64, UInt64.toNat_ofNat']
  omega

/-- What an instance puts into an announce: it passes every check of the peer. -/
structure FrontierAnnounce.Sendable (inbound : FrontierAnnounce) : Prop where
  version : 0 ≤ asI64 inbound.version.toNat
  epoch : 0 ≤ asI64 inbound.epochStart.toNat
  visibleFamily : inbound.visibleFilter.family = bloomFamily
  expansionFamily : inbound.expansionFilter.family = bloomFamily
  visible : inbound.visibleFilter.checked = true
  expansion : inbound.expansionFilter.checked = true

section Handle

variable {store : FrontierStore} {coverage : Coverage} {inbound : FrontierAnnounce} {caller : ApplyCaller}

theorem FrontierAnnounce.Sendable.checked (sendable : inbound.Sendable) (mode : Mode) :
    (inbound.row mode).checked = true := by
  simp [FrontierRow.checked, FrontierAnnounce.row, sendable.version, sendable.epoch, sendable.visible,
    sendable.expansion]

theorem FrontierAnnounce.Sendable.beginApply (sendable : inbound.Sendable) (caller : ApplyCaller) (prior : Mode) :
    beginApply caller inbound prior = .upserting caller inbound prior := by
  obtain ⟨visible, isVisible⟩ := intoBloom_of_checked sendable.visibleFamily sendable.visible
  obtain ⟨expansion, isExpansion⟩ := intoBloom_of_checked sendable.expansionFamily sendable.expansion
  rw [Prismoire.beginApply, isVisible, isExpansion]

section

variable (store : FrontierStore) (coverage : Coverage)

theorem first_statement (message : Published) : ∃ stage, store.advance coverage message.request.start = (store, stage) ∧
      ((∃ answer, stage = .answered answer) ∨ ∃ prior, stage = .upserting message.caller message.inbound prior) := by
  cases message with
  | announced body =>
    refine ⟨readForAnnounce body store.row, rfl, ?_⟩
    rw [readForAnnounce.eq_def]
    split
    · exact (beginApply_split .announce body .filtered).imp_right fun begun => ⟨_, begun.1⟩
    · split
      · exact .inl ⟨_, rfl⟩
      · split
        · exact .inl ⟨_, rfl⟩
        · exact (beginApply_split .announce body _).imp_right fun begun => ⟨_, begun.1⟩
  | served snapshot =>
    refine ⟨_, rfl, ?_⟩
    exact (beginApply_split .pull snapshot.inbound _).imp_right fun begun => ⟨_, begun.1⟩

theorem row_replacing (caller : ApplyCaller) (inbound : FrontierAnnounce) :
    (store.advance coverage (.replacing caller inbound)).1.row = store.row := by
  rw [advance, replacePeerAgeCeilings, writeCeilings]
  split
  · rfl
  · rename_i isSome
    split at isSome
    · cases isSome
    · cases isSome
      rfl

theorem row_rereading (inbound : FrontierAnnounce) :
    (store.advance coverage (.rereading inbound)).1.row = store.row := by
  rw [advance]
  split <;> rfl

theorem row_upserting (caller : ApplyCaller) (inbound : FrontierAnnounce) (mode : Mode) :
    ((store.upsert caller inbound mode).1.advance coverage (store.upsert caller inbound mode).2).1.row = store.row ∨
      (store.upsert caller inbound mode).1.row = some (inbound.row mode) ∧
        (store.upsert caller inbound mode).2 = .replacing caller inbound := by
  rw [upsert.eq_def]
  by_cases checked : (inbound.row mode).checked = true
  · simp only [checked, not_true_eq_false, if_false]
    cases found : store.row with
    | none => exact .inr ⟨rfl, rfl⟩
    | some old =>
      by_cases newer : old.appliedVersion < asI64 inbound.version.toNat
      · simp only [newer, if_true]
        exact .inr ⟨trivial, trivial⟩
      · simp only [newer, if_false]
        left
        cases caller with
        | announce => exact (row_rereading store coverage inbound).trans found
        | pull => exact found
  · simp only [checked]
    exact .inl rfl

theorem handle_row (message : Published) : (store.handle coverage message.request).1.row = store.row ∨
      ∃ mode, (store.handle coverage message.request).1.row = some (message.inbound.row mode) := by
  obtain ⟨stage, isFirst, next⟩ := first_statement store coverage message
  simp only [handle, isFirst]
  rcases next with ⟨answer, rfl⟩ | ⟨prior, rfl⟩
  · exact .inl rfl
  · rw [advance]
    rcases row_upserting store coverage message.caller message.inbound (classifyMode prior coverage) with
      same | ⟨isRow, isNext⟩
    · exact .inl same
    · rw [isNext, row_replacing]
      exact .inr ⟨_, isRow⟩

end

theorem handle_newer (message : Published) (sendable : message.inbound.Sendable) (newer : ∀ row, store.row = some row →
      0 ≤ row.appliedVersion ∧ row.appliedVersion < asI64 message.inbound.version.toNat) :
    ∃ mode, (store.handle coverage message.request).1.row = some (message.inbound.row mode) ∧
      (store.handle coverage message.request).2 = .answered (message.caller.onApplied message.inbound) := by
  have first : ∃ prior, store.advance coverage message.request.start =
      (store, .upserting message.caller message.inbound prior) := by
    cases message with
    | served snapshot => exact ⟨_, congrArg (Prod.mk store) (sendable.beginApply .pull _)⟩
    | announced body =>
      cases found : store.row with
      | none =>
        refine ⟨.filtered, congrArg (Prod.mk store) ?_⟩
        rw [found]
        exact sendable.beginApply .announce .filtered
      | some row =>
        refine ⟨row.outboundMode, congrArg (Prod.mk store) ?_⟩
        obtain ⟨signed, less⟩ := newer row found
        have fits := asI64_nonneg.mp sendable.version
        have bound : row.appliedVersion < body.version.toNat := by
          change row.appliedVersion < asI64 body.version.toNat at less
          change body.version.toNat < 2 ^ 63 at fits
          rw [asI64] at less
          split at less <;> omega
        have wide := body.version.toNat_lt
        have cast := toNat_asU64 signed (by omega)
        have notLess : ¬ body.version < asU64 row.appliedVersion := by
          rw [UInt64.lt_iff_toNat_lt]
          omega
        have notSame : ¬ body.version = asU64 row.appliedVersion := by
          intro same
          rw [← same] at cast
          omega
        rw [found, readForAnnounce, if_neg notLess, if_neg notSame]
        exact sendable.beginApply .announce row.outboundMode
  obtain ⟨prior, isFirst⟩ := first
  refine ⟨classifyMode prior coverage, ?_⟩
  have won : store.upsert message.caller message.inbound (classifyMode prior coverage) = ({ store with
        row := some (message.inbound.row (classifyMode prior coverage))
        applied := store.applied ++ [.snapshot message.inbound] }, .replacing message.caller message.inbound) := by
    rw [upsert.eq_def]
    simp only [sendable.checked, not_true_eq_false, if_false]
    cases found : store.row with
    | none => rfl
    | some row =>
      dsimp only
      rw [if_pos (newer row found).2]
  simp only [handle, isFirst]
  rw [show store.advance coverage (.upserting message.caller message.inbound prior) =
    store.upsert message.caller message.inbound (classifyMode prior coverage) from rfl, won]
  simp [advance, replacePeerAgeCeilings, writeCeilings]

end Handle

def FrontierContent.Precedes (earlier later : FrontierContent) : Prop :=
  earlier = later ∨ earlier.version < later.version

theorem FrontierContent.Precedes.trans {first second third : FrontierContent} (one : first.Precedes second)
    (two : second.Precedes third) : first.Precedes third := by
  rcases one with rfl | less
  · exact two
  · rcases two with rfl | less'
    · exact .inr less
    · exact .inr (Int.lt_trans less less')

def FrontierAnnounce.content (inbound : FrontierAnnounce) : FrontierContent where
  version := asI64 inbound.version.toNat
  visible := inbound.visibleFilter
  expansion := inbound.expansionFilter

/-- No frontier of a version other than 0 is published before a restart, and the counter stays below
what a column holds. -/
def Steady (exchange : FrontierExchange) : ExchangeEvent → Prop
  | .refresh next => exchange.own.changed next = true → exchange.own.version.toNat + 1 < 2 ^ 63
  | .announce next _ => exchange.own.changed next = true → exchange.own.version.toNat + 1 < 2 ^ 63
  | .serve => True
  | .restart _ _ => ∀ message ∈ exchange.published, message.inbound.version = 0
  | .deliver _ _ => True

instance (exchange : FrontierExchange) : (event : ExchangeEvent) → Decidable (Steady exchange event)
  | .refresh next => inferInstanceAs
      (Decidable (exchange.own.changed next = true → exchange.own.version.toNat + 1 < 2 ^ 63))
  | .announce next _ => inferInstanceAs
      (Decidable (exchange.own.changed next = true → exchange.own.version.toNat + 1 < 2 ^ 63))
  | .serve => isTrue trivial
  | .restart _ _ => inferInstanceAs (Decidable (∀ message ∈ exchange.published, message.inbound.version = 0))
  | .deliver _ _ => isTrue trivial

def emptyContent : FrontierContent where
  version := 0
  visible := FilterSpec.fromBloom emptyFilter
  expansion := FilterSpec.fromBloom emptyFilter

def LocalFrontier.content (frontier : LocalFrontier) : FrontierContent where
  version := asI64 frontier.version.toNat
  visible := FilterSpec.fromBloom frontier.visibleFilter
  expansion := FilterSpec.fromBloom frontier.expansionFilter

/-- Everything published is a stage of the way from the empty frontier to the present one, and what
the peer stores is one of them. -/
structure FrontierExchange.Trusted (exchange : FrontierExchange) : Prop where
  fits : 0 ≤ asI64 exchange.own.version.toNat
  own : emptyContent.Precedes exchange.own.content
  start : ∀ message ∈ exchange.published, emptyContent.Precedes message.inbound.content
  behind : ∀ message ∈ exchange.published, message.inbound.content.Precedes exchange.own.content
  ordered : exchange.published.Pairwise fun first second => first.inbound.content.Precedes second.inbound.content
  sendable : ∀ message ∈ exchange.published, message.inbound.Sendable
  held : ∀ row, exchange.peer.row = some row → ∃ message ∈ exchange.published, row.content = message.inbound.content

variable {exchange : FrontierExchange}

theorem asI64_saturatingSucc {version : UInt64} (room : version.toNat + 1 < 2 ^ 63) :
    asI64 (saturatingSucc version).toNat = asI64 version.toNat + 1 := by
  have next : (saturatingSucc version).toNat = version.toNat + 1 := by
    rw [saturatingSucc, if_pos (by omega), UInt64.toNat_add]
    change (version.toNat + 1) % 2 ^ 64 = _
    omega
  rw [next, asI64, asI64]
  split <;> split <;> omega

theorem LocalFrontier.precedes_refresh {prev next : LocalFrontier}
    (room : prev.changed next = true → prev.version.toNat + 1 < 2 ^ 63) :
    prev.content.Precedes (prev.refresh next).content := by
  rw [LocalFrontier.refresh]
  split
  · rename_i changed
    right
    have grown := asI64_saturatingSucc (room changed)
    change asI64 prev.version.toNat < asI64 (saturatingSucc prev.version).toNat
    omega
  · exact .inl rfl

theorem LocalFrontier.signed_refresh {prev next : LocalFrontier} (fits : 0 ≤ asI64 prev.version.toNat)
    (room : prev.changed next = true → prev.version.toNat + 1 < 2 ^ 63) :
    0 ≤ asI64 (prev.refresh next).version.toNat := by
  rcases precedes_refresh room with same | less
  · have version := congrArg FrontierContent.version same
    change asI64 prev.version.toNat = asI64 (prev.refresh next).version.toNat at version
    omega
  · change asI64 prev.version.toNat < asI64 (prev.refresh next).version.toNat at less
    omega

theorem LocalFrontier.sendable {frontier : LocalFrontier} (fits : 0 ≤ asI64 frontier.version.toNat) (mode : Mode) :
    (frontier.announce mode).Sendable :=
  ⟨fits, frontier.epochFits, rfl, rfl, frontier.visibleFits, frontier.expansionFits⟩

theorem signed_zero : 0 ≤ asI64 (0 : UInt64).toNat := by
  decide

theorem trusted_start (now : UInt64) (fits : 0 ≤ asI64 now.toNat) :
    ({ own := .empty now fits } : FrontierExchange).Trusted where
  fits := signed_zero
  own := .inl rfl
  start := by simp
  behind := by simp
  ordered := .nil
  sendable := by simp
  held := by simp

namespace FrontierExchange.Trusted

variable (trusted : exchange.Trusted)
include trusted

theorem refresh {next : LocalFrontier}
    (room : exchange.own.changed next = true → exchange.own.version.toNat + 1 < 2 ^ 63) :
    ({ exchange with
      own := exchange.own.refresh next } : FrontierExchange).Trusted :=
  { trusted with
    fits := LocalFrontier.signed_refresh trusted.fits room
    own := trusted.own.trans (LocalFrontier.precedes_refresh room)
    behind := fun message mem => (trusted.behind message mem).trans (LocalFrontier.precedes_refresh room) }

theorem publish {message : Published}
    (present : message.inbound.content = exchange.own.content) (sendable : message.inbound.Sendable) :
    ({ exchange with
      published := exchange.published ++ [message] } : FrontierExchange).Trusted := by
  have split : ∀ other ∈ exchange.published ++ [message], other ∈ exchange.published ∨ other = message := by
    simp
  refine ⟨trusted.fits, trusted.own, ?_, ?_, ?_, ?_, ?_⟩
  · intro other mem
    rcases split other mem with old | rfl
    · exact trusted.start other old
    · rw [present]
      exact trusted.own
  · intro other mem
    rcases split other mem with old | rfl
    · exact trusted.behind other old
    · exact .inl present
  · rw [pairwise_append]
    refine ⟨trusted.ordered, pairwise_singleton _ _, ?_⟩
    intro earlier mem other isMessage
    rw [mem_singleton.mp isMessage, present]
    exact trusted.behind earlier mem
  · intro other mem
    rcases split other mem with old | rfl
    · exact trusted.sendable other old
    · exact sendable
  · intro row isRow
    obtain ⟨other, mem, holds⟩ := trusted.held row isRow
    exact ⟨other, mem_append_left _ mem, holds⟩

theorem restart {now : UInt64} {fits : 0 ≤ asI64 now.toNat}
    (untold : ∀ message ∈ exchange.published, message.inbound.version = 0) :
    ({ exchange with
      own := .empty now fits } : FrontierExchange).Trusted := by
  refine { trusted with fits := signed_zero, own := .inl rfl, behind := ?_ }
  intro message mem
  rcases trusted.start message mem with same | later
  · exact .inl same.symm
  · have version : message.inbound.content.version = 0 := by
      change asI64 message.inbound.version.toNat = 0
      rw [untold message mem]
      rfl
    change 0 < message.inbound.content.version at later
    omega

theorem deliver {message : Published} (mem : message ∈ exchange.published) (coverage : Coverage) : ({ exchange with
      peer := (exchange.peer.handle coverage message.request).1 } : FrontierExchange).Trusted := by
  refine { trusted with held := ?_ }
  intro row isRow
  rcases handle_row exchange.peer coverage message with same | ⟨mode, applied⟩
  · exact trusted.held row (same ▸ isRow)
  · have isMessage := some.inj (isRow.symm.trans applied)
    exact ⟨message, mem, by rw [isMessage]; rfl⟩

theorem step {event : ExchangeEvent} (steady : Steady exchange event) : (exchange.step event).Trusted := by
  cases event with
  | refresh next => exact trusted.refresh steady
  | announce next mode =>
    have refreshed := trusted.refresh steady
    exact @publish _ refreshed (.announced _) rfl (LocalFrontier.sendable refreshed.fits mode)
  | serve => exact @publish _ trusted (.served _) rfl (LocalFrontier.sendable trusted.fits .filtered)
  | restart now fits => exact trusted.restart steady
  | deliver index coverage =>
    rw [FrontierExchange.step]
    split
    · exact trusted
    · rename_i message isMessage
      exact trusted.deliver (mem_of_getElem? isMessage) coverage

end FrontierExchange.Trusted

def FrontierExchange.Newer (exchange : FrontierExchange) (index : Nat) (message : Published) : Prop :=
  ∀ row, exchange.peer.row = some row → ∃ before held, before < index ∧ exchange.published[before]? = some held ∧
    row.content = held.inbound.content ∧
    ¬ (held.inbound.visibleFilter = message.inbound.visibleFilter ∧
      held.inbound.expansionFilter = message.inbound.expansionFilter)

/-- In a run without a restart once a frontier was published, whatever the peer gets of what was
published and in whatever order: later messages carry no smaller versions, equal versions mean equal
filters, the peer holds something published, and it applies whatever is newer than that. -/
theorem published_versions_trustworthy {now : UInt64} {fits : 0 ≤ asI64 now.toNat} {events reached : List ExchangeEvent}
    (steady : MeetAlong FrontierExchange.step Steady { own := .empty now fits } events)
    (within : reached <+: events)
    (isReached : exchange = reached.foldl FrontierExchange.step { own := .empty now fits }) :
    (∀ (i j : Nat) (first second : Published), i ≤ j →
      exchange.published[i]? = some first → exchange.published[j]? = some second →
      first.inbound.version ≤ second.inbound.version ∧
      (first.inbound.version = second.inbound.version → first.inbound.visibleFilter = second.inbound.visibleFilter ∧
        first.inbound.expansionFilter = second.inbound.expansionFilter)) ∧
    (∀ row, exchange.peer.row = some row → ∃ message ∈ exchange.published, row.content = message.inbound.content) ∧
    ∀ index message coverage, exchange.published[index]? = some message → exchange.Newer index message →
      ∃ mode, (exchange.peer.handle coverage message.request).1.row = some (message.inbound.row mode) ∧
        (exchange.peer.handle coverage message.request).2 = .answered (message.caller.onApplied message.inbound) := by
  have trusted : exchange.Trusted := by
    rw [isReached]
    exact (steady.of_shorter within).invariant (fun exchange event trusted steady => trusted.step steady)
      (trusted_start now fits)
  have precedes : ∀ (i j : Nat) (first second : Published), i ≤ j → exchange.published[i]? = some first →
      exchange.published[j]? = some second → first.inbound.content.Precedes second.inbound.content := by
    intro i j first second le isFirst isSecond
    by_cases same : i = j
    · subst same
      rw [isFirst] at isSecond
      exact .inl (by rw [some.inj isSecond])
    · obtain ⟨iIn, rfl⟩ := List.getElem?_eq_some_iff.mp isFirst
      obtain ⟨jIn, rfl⟩ := List.getElem?_eq_some_iff.mp isSecond
      exact pairwise_iff_getElem.mp trusted.ordered i j iIn jIn (by omega)
  refine ⟨?_, trusted.held, ?_⟩
  · intro i j first second le isFirst isSecond
    have signed := (trusted.sendable first (mem_of_getElem? isFirst)).version
    rcases precedes i j first second le isFirst isSecond with same | later
    · have version := congrArg asU64 (congrArg FrontierContent.version same)
      simp only [FrontierAnnounce.content, asU64_asI64] at version
      refine ⟨UInt64.le_of_eq version, fun _ => ?_⟩
      exact ⟨congrArg FrontierContent.visible same, congrArg FrontierContent.expansion same⟩
    · have less := lt_of_asI64_lt signed later
      refine ⟨UInt64.le_of_lt less, ?_⟩
      intro same
      rw [same] at less
      exact absurd less (UInt64.lt_irrefl _)
  · intro index message coverage isMessage newer
    have mem := mem_of_getElem? isMessage
    refine handle_newer message (trusted.sendable message mem) ?_
    intro row isRow
    obtain ⟨before, held, less, isHeld, holds, differ⟩ := newer row isRow
    have version : row.appliedVersion = asI64 held.inbound.version.toNat := congrArg FrontierContent.version holds
    have signed := (trusted.sendable held (mem_of_getElem? isHeld)).version
    refine ⟨by omega, ?_⟩
    rcases precedes before index held message (by omega) isHeld isMessage with same | later
    · exact absurd ⟨congrArg FrontierContent.visible same, congrArg FrontierContent.expansion same⟩ differ
    · rw [version]
      exact later

def plainBloom (byte : UInt8) : BloomFilter where
  k := 7
  m := 64
  nEst := 1
  bits := List.replicate 8 byte

theorem plainBloom_fits (byte : UInt8) : (FilterSpec.fromBloom (plainBloom byte)).checked = true := by
  simp only [FilterSpec.checked, FilterSpec.fromBloom, plainBloom, length_replicate]
  rfl

/-- What a refresh computes, its version not set yet. -/
def plainFrontier (byte : UInt8) : LocalFrontier where
  version := 0
  epochStart := 1000
  visibleFilter := plainBloom byte
  expansionFilter := plainBloom byte
  ageCeilings := {}
  epochFits := by decide
  visibleFits := plainBloom_fits byte
  expansionFits := plainBloom_fits byte

def onBoot : FrontierExchange where
  own := .empty 500 (by decide)

def twoAnnounces : List ExchangeEvent :=
  [.announce (plainFrontier 1) .filtered, .deliver 0 .noUsers, .announce (plainFrontier 2) .filtered]

theorem second_announce_is_applied : MeetAlong FrontierExchange.step Steady onBoot twoAnnounces ∧
      ∃ mode, ((twoAnnounces.foldl FrontierExchange.step onBoot).peer.handle .noUsers
          (.announce { (plainFrontier 2).announce .filtered with version := 2 })).1.row =
        some (FrontierAnnounce.row { (plainFrontier 2).announce .filtered with version := 2 } mode) := by
  have steady : MeetAlong FrontierExchange.step Steady onBoot twoAnnounces := by decide
  refine ⟨steady, ?_⟩
  obtain ⟨-, -, applied⟩ := published_versions_trustworthy steady (prefix_refl _) rfl
  obtain ⟨mode, isRow, -⟩ := applied 1
    (.announced { (plainFrontier 2).announce .filtered with version := 2 }) .noUsers rfl (by
      intro row isRow
      cases isRow
      exact ⟨0, .announced { (plainFrontier 1).announce .filtered with version := 1 }, by decide, rfl, rfl, by decide⟩)
  exact ⟨mode, isRow⟩

def restartBetween : List ExchangeEvent :=
  [.announce (plainFrontier 1) .filtered, .deliver 0 .noUsers, .restart 2000 (by decide),
    .announce (plainFrontier 2) .filtered]

theorem announce_after_restart_is_ignored : (restartBetween.foldl FrontierExchange.step onBoot).published.map
        (fun message => (message.inbound.version, message.inbound.visibleFilter.bytes)) =
      [(1, List.replicate 8 1), (1, List.replicate 8 2)] ∧
    (restartBetween.foldl FrontierExchange.step onBoot).peer.row.map FrontierRow.content =
      some ⟨1, FilterSpec.fromBloom (plainBloom 1), FilterSpec.fromBloom (plainBloom 1)⟩ ∧
    ((restartBetween ++ [ExchangeEvent.deliver 1 .noUsers]).foldl FrontierExchange.step onBoot).peer.row.map FrontierRow.content =
      some ⟨1, FilterSpec.fromBloom (plainBloom 1), FilterSpec.fromBloom (plainBloom 1)⟩ := by
  decide

end Prismoire
