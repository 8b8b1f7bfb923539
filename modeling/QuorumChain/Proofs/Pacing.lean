import Mathlib.Data.List.Induction
import QuorumChain.BuildPolicy

/-! What a block is built for by a pacing, told by what it was asked since the last block. A pacing
keeps one moment of this, the first one at which transactions were seen to wait, and it keeps it also
when they do not wait any more. -/

namespace QuorumChain

/-- What a pacing is told: it is asked whether a block is due, or it hears of a committed block. -/
inductive PacingEvent where
  | asked (now : Timestamp) (waiting : Nat)
  | committed (b : Block)

/-- What a pacing was told since the last block. -/
structure PacingHistory where
  lastBlock : Timestamp
  /-- when it was asked, and how many transactions were waiting -/
  asked : List (Timestamp × Nat)

def PacingEvent.time? : PacingEvent → Option Timestamp
  | asked now _ => some now
  | committed _ => none

namespace PacingHistory

variable {h : PacingHistory} {config : PacingConfig} {t now : Timestamp} {waiting : Nat}

def note (h : PacingHistory) : PacingEvent → PacingHistory
  | .asked now waiting => { h with asked := h.asked ++ [(now, waiting)] }
  | .committed b => ⟨b.header.timestamp, []⟩

/-- The history of a chain whose best block has a given timestamp. -/
def ofEvents (lastBlock : Option Timestamp) (events : List PacingEvent) : PacingHistory :=
  events.foldl note ⟨lastBlock.getD .zero, []⟩

/-- At this moment transactions were waiting, too few of them for a block, and it was not too soon
for one. -/
def Noticed (h : PacingHistory) (config : PacingConfig) (t : Timestamp) : Prop :=
  ∃ waiting, (t, waiting) ∈ h.asked ∧ 0 < waiting ∧ waiting < config.maxBlockTransactions.toNat ∧
    config.minInterBlockInterval ≤ t.since h.lastBlock

theorem Noticed.note (hnoticed : h.Noticed config t) : (h.note (.asked now waiting)).Noticed config t := by
  obtain ⟨w, hmem, hw⟩ := hnoticed
  exact ⟨w, List.mem_append_left _ hmem, hw⟩

theorem noticed_note_cases (hnoticed : (h.note (.asked now waiting)).Noticed config t) :
    h.Noticed config t ∨
      (t = now ∧ 0 < waiting ∧ waiting < config.maxBlockTransactions.toNat ∧
        config.minInterBlockInterval ≤ now.since h.lastBlock) := by
  obtain ⟨w, hmem, hw⟩ := hnoticed
  rcases List.mem_append.mp hmem with hmem | hmem
  · exact .inl ⟨w, hmem, hw⟩
  · cases List.mem_singleton.mp hmem
    exact .inr ⟨rfl, hw⟩

theorem ofEvents_concat (lastBlock : Option Timestamp) (events : List PacingEvent) (e : PacingEvent) :
    ofEvents lastBlock (events ++ [e]) = (ofEvents lastBlock events).note e := by
  rw [ofEvents, List.foldl_append]
  rfl

/-- Whatever a history holds happened. -/
theorem asked_of_mem {lastBlock : Option Timestamp} {events : List PacingEvent}
    (hmem : (t, waiting) ∈ (ofEvents lastBlock events).asked) : .asked t waiting ∈ events := by
  induction events using List.reverseRecOn with
  | nil => cases hmem
  | append_singleton events e ih =>
    rw [ofEvents_concat] at hmem
    cases e with
    | asked now w =>
      rcases List.mem_append.mp hmem with hmem | hmem
      · exact List.mem_append_left _ (ih hmem)
      · cases List.mem_singleton.mp hmem
        exact List.mem_append_right _ (List.mem_singleton_self _)
    | committed b => cases hmem

end PacingHistory

namespace Pacing

variable {p : Pacing} {h : PacingHistory} {config : PacingConfig} {now : Timestamp} {waiting : Nat}

def hear (p : Pacing) : PacingEvent → Pacing
  | .asked now waiting => (p.shouldBuild now waiting).2
  | .committed b => p.committed b

def after (p : Pacing) (events : List PacingEvent) : Pacing := events.foldl hear p

/-- The clock does not run backward from one time that the pacing is asked to the next. -/
def Forward (events : List PacingEvent) : Prop := (events.filterMap (·.time?)).Pairwise (· ≤ ·)

instance (events : List PacingEvent) : Decidable (Forward events) :=
  inferInstanceAs (Decidable (List.Pairwise _ _))

theorem Forward.init {events : List PacingEvent} {e : PacingEvent} (h : Forward (events ++ [e])) :
    Forward events := by
  unfold Forward at h
  rw [List.filterMap_append] at h
  exact (List.pairwise_append.mp h).1

theorem Forward.le {lastBlock : Option Timestamp} {events : List PacingEvent} {t : Timestamp} {w : Nat}
    (h : Forward (events ++ [.asked now waiting]))
    (hmem : (t, w) ∈ (PacingHistory.ofEvents lastBlock events).asked) : t ≤ now := by
  unfold Forward at h
  rw [List.filterMap_append] at h
  exact (List.pairwise_append.mp h).2.2 t
    (List.mem_filterMap.mpr ⟨_, PacingHistory.asked_of_mem hmem, rfl⟩) now (List.mem_singleton_self _)

theorem since_le_since {t t' u u' : Timestamp} (h : t ≤ t') (hu : u' ≤ u) : t.since u ≤ t'.since u' := by
  show (t.number - u.number) * 1000 ≤ (t'.number - u'.number) * 1000
  have ht : t.number ≤ t'.number := h
  have hu : u'.number ≤ u.number := hu
  omega

/-- How a pacing answers, and what becomes of it. -/
inductive Answers (p : Pacing) (now : Timestamp) (waiting : Nat) : Bool → Pacing → Prop
  | late (h : p.config.maxBlockTime < now.since p.lastBlock) : Answers p now waiting true p
  | soon (hnotLate : ¬ p.config.maxBlockTime < now.since p.lastBlock)
      (h : now.since p.lastBlock < p.config.minInterBlockInterval) : Answers p now waiting false p
  | delayed {first : Timestamp} (hrested : p.config.minInterBlockInterval ≤ now.since p.lastBlock)
      (hfirst : p.firstWaiting = some first) (h : p.config.maxTxDelay < now.since first) :
      Answers p now waiting true p
  | full (hrested : p.config.minInterBlockInterval ≤ now.since p.lastBlock)
      (h : p.config.maxBlockTransactions.toNat ≤ waiting) : Answers p now waiting true p
  | noticed (hnotLate : ¬ p.config.maxBlockTime < now.since p.lastBlock)
      (hrested : p.config.minInterBlockInterval ≤ now.since p.lastBlock)
      (hfew : waiting < p.config.maxBlockTransactions.toNat) (hnone : p.firstWaiting = none)
      (h : 0 < waiting) : Answers p now waiting false { p with firstWaiting := some now }
  | quiet (hnotLate : ¬ p.config.maxBlockTime < now.since p.lastBlock)
      (hfew : waiting < p.config.maxBlockTransactions.toNat)
      (hwaits : ∀ first, p.firstWaiting = some first → ¬ p.config.maxTxDelay < now.since first)
      (h : p.firstWaiting = none → waiting = 0) : Answers p now waiting false p

theorem shouldBuild_answers (p : Pacing) (now : Timestamp) (waiting : Nat) :
    p.Answers now waiting (p.shouldBuild now waiting).1 (p.shouldBuild now waiting).2 := by
  unfold shouldBuild
  dsimp only
  split
  next hlate => exact .late hlate
  next hnotLate =>
  split
  next hsoon => exact .soon hnotLate hsoon
  next hnotSoon =>
  have hrested : p.config.minInterBlockInterval ≤ now.since p.lastBlock := Nat.le_of_not_lt hnotSoon
  cases hfirst : p.firstWaiting with
  | none =>
    have hpunctual : p.isOverdue now = false := by rw [isOverdue, hfirst]
    rw [if_neg (by rw [hpunctual]; exact nofun)]
    split
    next hfull => exact .full hrested hfull
    next hfew =>
    have hfew : waiting < p.config.maxBlockTransactions.toNat := Nat.lt_of_not_le hfew
    by_cases hwaiting : 0 < waiting
    · rw [if_pos (by simpa using hwaiting)]
      exact .noticed hnotLate hrested hfew hfirst hwaiting
    · rw [if_neg (by simpa using hwaiting)]
      exact .quiet hnotLate hfew (by rw [hfirst]; exact nofun) fun _ => Nat.eq_zero_of_not_pos hwaiting
  | some first =>
    have hoverdue : p.isOverdue now = decide (p.config.maxTxDelay < now.since first) := by
      rw [isOverdue, hfirst]
    by_cases hdelay : p.config.maxTxDelay < now.since first
    · rw [if_pos (hoverdue.trans (decide_eq_true hdelay))]
      exact .delayed hrested hfirst hdelay
    · rw [if_neg (by rw [hoverdue]; simpa using hdelay)]
      split
      next hfull => exact .full hrested hfull
      next hfew =>
      rw [if_neg (by simp)]
      refine .quiet hnotLate (Nat.lt_of_not_le hfew) (fun first' hfirst' => ?_) fun hnone => ?_
      · cases hfirst.symm.trans hfirst'
        exact hdelay
      · cases hfirst.symm.trans hnone

/-- The pacing has the last block of its history, and the first moment at which transactions were
noticed, unless it was high time for a block by then. -/
structure Follows (p : Pacing) (config : PacingConfig) (h : PacingHistory) : Prop where
  config_eq : p.config = config
  lastBlock_eq : p.lastBlock = h.lastBlock
  noticed : ∀ first, p.firstWaiting = some first → h.Noticed config first
  first : ∀ t, h.Noticed config t →
    config.maxBlockTime < t.since h.lastBlock ∨ ∃ first, p.firstWaiting = some first ∧ first ≤ t

namespace Follows

theorem start (config : PacingConfig) (lastBlock : Option Timestamp) :
    Follows (.start config lastBlock) config (.ofEvents lastBlock []) where
  config_eq := rfl
  lastBlock_eq := rfl
  noticed := nofun
  first t ht := by
    obtain ⟨w, hmem, _⟩ := ht
    cases hmem

theorem committed (hp : p.Follows config h) (b : Block) :
    Follows (p.committed b) config (h.note (.committed b)) where
  config_eq := hp.config_eq
  lastBlock_eq := rfl
  noticed := nofun
  first t ht := by
    obtain ⟨w, hmem, _⟩ := ht
    cases hmem

/-- The same moment is kept if there is nothing to notice, or if it is high time or another moment is
kept already. -/
theorem kept (hp : p.Follows config h)
    (hnow : 0 < waiting → waiting < config.maxBlockTransactions.toNat →
      config.minInterBlockInterval ≤ now.since h.lastBlock →
        config.maxBlockTime < now.since h.lastBlock ∨ ∃ first, p.firstWaiting = some first ∧ first ≤ now) :
    p.Follows config (h.note (.asked now waiting)) where
  config_eq := hp.config_eq
  lastBlock_eq := hp.lastBlock_eq
  noticed first hfirst := (hp.noticed first hfirst).note
  first t ht := by
    rcases PacingHistory.noticed_note_cases ht with ht | ⟨rfl, hwaiting, hfew, hrested⟩
    · exact hp.first t ht
    · exact hnow hwaiting hfew hrested

theorem asked (hp : p.Follows config h) (hforward : ∀ t w, (t, w) ∈ h.asked → t ≤ now) :
    (p.shouldBuild now waiting).2.Follows config (h.note (.asked now waiting)) := by
  have hearlier : ∀ first, p.firstWaiting = some first → first ≤ now := by
    intro first hfirst
    obtain ⟨w, hmem, _⟩ := hp.noticed first hfirst
    exact hforward first w hmem
  have hlast := hp.lastBlock_eq
  obtain rfl := hp.config_eq
  have hanswers := p.shouldBuild_answers now waiting
  generalize (p.shouldBuild now waiting).1 = due at hanswers
  generalize (p.shouldBuild now waiting).2 = p' at hanswers ⊢
  cases hanswers with
  | late hlate => exact hp.kept fun _ _ _ => .inl (hlast ▸ hlate)
  | soon _ hsoon => exact hp.kept fun _ _ hrested => absurd (hlast ▸ hrested) (Nat.not_le.mpr hsoon)
  | delayed _ hfirst _ => exact hp.kept fun _ _ _ => .inr ⟨_, hfirst, hearlier _ hfirst⟩
  | full _ hfull => exact hp.kept fun _ hfew _ => absurd hfull (Nat.not_le.mpr hfew)
  | noticed _ hrested hfew hnone hwaiting =>
    refine ⟨rfl, hlast, fun first hfirst => ?_, fun t ht => ?_⟩
    · cases hfirst
      exact ⟨waiting, List.mem_append_right _ (List.mem_singleton_self _), hwaiting, hfew, hlast ▸ hrested⟩
    · rcases PacingHistory.noticed_note_cases ht with ht | ⟨rfl, _⟩
      · rcases hp.first t ht with hlate | ⟨first, hfirst, _⟩
        · exact .inl hlate
        · cases hnone.symm.trans hfirst
      · exact .inr ⟨t, rfl, Nat.le_refl _⟩
  | quiet _ _ _ hnothing =>
    refine hp.kept fun hwaiting _ _ => .inr ?_
    cases hfirst : p.firstWaiting with
    | none => exact absurd (hnothing hfirst) (Nat.ne_of_gt hwaiting)
    | some first => exact ⟨first, rfl, hearlier first hfirst⟩

end Follows

theorem follows_after (config : PacingConfig) (lastBlock : Option Timestamp) {events : List PacingEvent}
    (hforward : Forward events) :
    ((start config lastBlock).after events).Follows config (.ofEvents lastBlock events) := by
  induction events using List.reverseRecOn with
  | nil => exact .start config lastBlock
  | append_singleton events e ih =>
    rw [PacingHistory.ofEvents_concat, after, List.foldl_append]
    have hp := ih hforward.init
    cases e with
    | asked now waiting => exact hp.asked fun t w hmem => hforward.le hmem
    | committed b => exact hp.committed b

/-- What the answer depends on. -/
theorem shouldBuild_iff :
    (p.shouldBuild now waiting).1 = true ↔
      p.config.maxBlockTime < now.since p.lastBlock ∨
        (p.config.minInterBlockInterval ≤ now.since p.lastBlock ∧
          (p.config.maxBlockTransactions.toNat ≤ waiting ∨
            ∃ first, p.firstWaiting = some first ∧ p.config.maxTxDelay < now.since first)) := by
  have hanswers := p.shouldBuild_answers now waiting
  generalize (p.shouldBuild now waiting).2 = p' at hanswers
  generalize (p.shouldBuild now waiting).1 = due at hanswers ⊢
  cases hanswers with
  | late hlate => exact iff_of_true rfl (.inl hlate)
  | soon hnotLate hsoon =>
    refine iff_of_false nofun ?_
    rintro (hlate | ⟨hrested, _⟩)
    · exact hnotLate hlate
    · exact Nat.not_le.mpr hsoon hrested
  | delayed hrested hfirst hdelay => exact iff_of_true rfl (.inr ⟨hrested, .inr ⟨_, hfirst, hdelay⟩⟩)
  | full hrested hfull => exact iff_of_true rfl (.inr ⟨hrested, .inl hfull⟩)
  | noticed hnotLate _ hfew hnone _ =>
    refine iff_of_false nofun ?_
    rintro (hlate | ⟨_, hfull | ⟨first, hfirst, _⟩⟩)
    · exact hnotLate hlate
    · exact Nat.not_le.mpr hfew hfull
    · cases hnone.symm.trans hfirst
  | quiet hnotLate hfew hwaits _ =>
    refine iff_of_false nofun ?_
    rintro (hlate | ⟨_, hfull | ⟨first, hfirst, hdelay⟩⟩)
    · exact hnotLate hlate
    · exact Nat.not_le.mpr hfew hfull
    · exact hwaits first hfirst hdelay

/-- **What a block is built for.** The last block is older than the longest time between blocks; or
it is not too recent, and there are enough transactions waiting, or some were noticed to wait longer
ago than they may be delayed, with no block since then. That they were noticed does not say that they
still wait. -/
theorem due_iff (config : PacingConfig) (lastBlock : Option Timestamp) {events : List PacingEvent}
    (hforward : Forward (events ++ [.asked now waiting])) :
    let h := PacingHistory.ofEvents lastBlock events
    (((start config lastBlock).after events).shouldBuild now waiting).1 = true ↔
      config.maxBlockTime < now.since h.lastBlock ∨
        (config.minInterBlockInterval ≤ now.since h.lastBlock ∧
          (config.maxBlockTransactions.toNat ≤ waiting ∨
            ∃ t, h.Noticed config t ∧ config.maxTxDelay < now.since t)) := by
  intro h
  have hp : ((start config lastBlock).after events).Follows config h :=
    follows_after config lastBlock hforward.init
  rw [shouldBuild_iff, hp.config_eq, hp.lastBlock_eq]
  constructor
  · rintro (hlate | ⟨hrested, hfull | ⟨first, hfirst, hdelay⟩⟩)
    · exact .inl hlate
    · exact .inr ⟨hrested, .inl hfull⟩
    · exact .inr ⟨hrested, .inr ⟨first, hp.noticed first hfirst, hdelay⟩⟩
  · rintro (hlate | ⟨hrested, hfull | ⟨t, hnoticed, hdelay⟩⟩)
    · exact .inl hlate
    · exact .inr ⟨hrested, .inl hfull⟩
    · rcases hp.first t hnoticed with hlate | ⟨first, hfirst, hle⟩
      · obtain ⟨w, hmem, _⟩ := hnoticed
        exact .inl (Nat.lt_of_lt_of_le hlate (since_le_since (hforward.le hmem) (Nat.le_refl _)))
      · exact .inr ⟨hrested, .inr ⟨first, hfirst,
          Nat.lt_of_lt_of_le hdelay (since_le_since (Nat.le_refl _) hle)⟩⟩

/-- A transaction waits a tenth of a second after the last block. -/
def delayedRun : List PacingEvent := [.asked (.ofNatClamped 1000100000) 1]

/-- A second later there is a block for it. -/
theorem due_iff_delayed :
    Forward (delayedRun ++ [.asked (.ofNatClamped 1001101000) 1]) ∧
      (((start {} (some (.ofNatClamped 1000000000))).after delayedRun).shouldBuild
        (.ofNatClamped 1001101000) 1).1 = true := by
  have hforward : Forward (delayedRun ++ [.asked (.ofNatClamped 1001101000) 1]) := by decide
  have hnoticed : PacingHistory.Noticed (.ofEvents (some (.ofNatClamped 1000000000)) delayedRun) {}
      (.ofNatClamped 1000100000) := ⟨1, .head _, by decide, by decide, by decide⟩
  exact ⟨hforward, (due_iff {} _ hforward).mpr (.inr ⟨by decide, .inr ⟨_, hnoticed, by decide⟩⟩)⟩

/-- **There is a block for it even if nothing waits any more**, long before an empty block is due. -/
theorem due_for_nothing :
    Forward (delayedRun ++ [.asked (.ofNatClamped 1001101000) 0]) ∧
      (((start {} (some (.ofNatClamped 1000000000))).after delayedRun).shouldBuild
        (.ofNatClamped 1001101000) 0).1 = true ∧
      ¬ ({} : PacingConfig).maxBlockTime < Counter.since (.ofNatClamped 1001101000)
        (PacingHistory.ofEvents (some (.ofNatClamped 1000000000)) delayedRun).lastBlock := by
  decide

end Pacing

end QuorumChain
