import QuorumChain.Engine.Failing
import QuorumChain.Proofs.Ledger.Chain
import QuorumChain.Proofs.Ledger.Staging

/-! The transactions of a database that wait for a block: those that the staged block has taken out of
the queue, and the queue. They keep their order, and they are gone only with a block that holds them.
A build takes them before it asks for the time of day, so it needs a clock that can be read. -/

namespace QuorumChain

namespace Ledger

variable [CryptoSuite] {l l' : Ledger} {s : StagedBlock} {w : Witness} {clock : WallClock}

/-- A build is refused, or takes the first transactions of the queue. -/
theorem build_takes {now : Timestamp} (hread : clock.read = .ok now)
    {r : Except Fault (Except (Refusal StagedBlock LedgerError) StagedBlock)}
    (h : l.build clock = (r, l')) :
    ((∃ e, r = .ok (.error ⟨none, e⟩)) ∧ l' = l) ∨
      (l' = { l with queue := l.queue.drop l.maxTransactions } ∧
        ∃ s, r = .ok (.ok s) ∧ s.block.transactions = s.requeue ∧
          s.requeue = l.queue.take l.maxTransactions) := by
  unfold build at h
  rw [hread] at h
  split at h
  · cases h
    exact .inl ⟨⟨_, rfl⟩, rfl⟩
  · cases h
    exact .inr ⟨rfl, _, rfl, rfl, rfl⟩

/-- A build that cannot tell the time of day has taken the first transactions of the queue by then. -/
theorem build_fault {fault : Fault} (hopen : l.closed = false) (hread : clock.read = .error fault) :
    l.build clock = (.error fault, { l with queue := l.queue.drop l.maxTransactions }) := by
  rw [build, hopen, hread]
  rfl

/-- A commit drops what the block holds from the queue, or puts back what the block has taken. -/
theorem commit_drops {r : Except LedgerError Unit} (h : l.commit s w = (r, l')) :
    (r = .ok () ∧ l' = { l with
        queue := l.queue.filter (· ∉ s.block.transactions)
        blocks := l.blocks ++ [⟨s.block, w⟩] }) ∨
      ((∃ e, r = .error e) ∧ l' = l.rollback s) := by
  unfold commit at h
  split at h
  next e _ =>
    cases h
    exact .inr ⟨⟨e, rfl⟩, rfl⟩
  · cases h
    exact .inl ⟨rfl, rfl⟩

end Ledger

/-- A ledger that can be told to fail at staging blocks, with a block staged on it. -/
abbrev FailingStore := Database (FailingEngine Ledger) StagedBlock SignatureCollector

/-- What may be done to a database, and to its engine in between. -/
inductive StoreAction where
  | submit (tx : Transaction)
  | close
  /-- tells the engine whether to fail at building and at loading from now on -/
  | fail (builds loads : Bool)
  | load (b : Block)
  | build (clock : WallClock)
  | commit (signatures : List CommitSignature)
  | add (b : WitnessedBlock)
  | verifySignature (s : CommitSignature)
  | stop

/-- A build needs a clock that can be read. -/
def StoreAction.IsTimely : StoreAction → Prop
  | .build clock => clock.IsReadable
  | _ => True

namespace Database

/-- The transactions that wait for a block. -/
def pending (d : FailingStore) : List Transaction :=
  (d.staged.elim [] StagedBlock.requeue) ++ d.engine.engine.queue

def blocks (d : FailingStore) : List WitnessedBlock := d.engine.engine.blocks

/-- The staged block holds the transactions that it has taken out of the queue. -/
def HoldsTaken (d : FailingStore) : Prop :=
  ∀ s, d.staged = some s → s.requeue ⊆ s.block.transactions

/-- The action is a build that comes as far as to the clock and finds no time of day. -/
inductive BreaksOff (d : FailingStore) : StoreAction → Prop
  | build {clock : WallClock} {fault : Fault} (hrunning : d.stopped = false)
      (hopen : d.engine.engine.closed = false) (hread : clock.read = .error fault) :
      BreaksOff d (.build clock)

variable {d d' : FailingStore}

theorem not_breaksOff {a : StoreAction} (h : a.IsTimely) : ¬ d.BreaksOff a := by
  intro hbreaks
  cases hbreaks with
  | build _ _ hread => exact WallClock.IsReadable.read_ne_error h _ hread

/-- Nothing is stored, and the same transactions wait. -/
structure Keeps (d d' : FailingStore) : Prop where
  pending_eq : d'.pending = d.pending
  blocks_eq : d'.blocks = d.blocks
  holds : d.HoldsTaken → d'.HoldsTaken

/-- A block is stored, and what it holds does not wait any more. -/
structure Releases (d d' : FailingStore) (b : Block) : Prop where
  pending_eq : d'.pending = d.pending.filter (· ∉ b.transactions)
  blocks_eq : ∃ w, d'.blocks = d.blocks ++ [⟨b, w⟩]
  holds : d'.HoldsTaken

theorem Keeps.refl (d : FailingStore) : Keeps d d := ⟨rfl, rfl, fun h => h⟩

theorem Keeps.trans {d'' : FailingStore} (h : Keeps d d') (h' : Keeps d' d'') : Keeps d d'' :=
  ⟨h'.pending_eq.trans h.pending_eq, h'.blocks_eq.trans h.blocks_eq, fun hd => h'.holds (h.holds hd)⟩

theorem Keeps.releases {d'' : FailingStore} {b : Block} (h : Keeps d d') (h' : Releases d' d'' b) :
    Releases d d'' b :=
  ⟨h.pending_eq ▸ h'.pending_eq, h.blocks_eq ▸ h'.blocks_eq, h'.holds⟩

theorem pending_unstaged (hd : d.staged = none) : d.pending = d.engine.engine.queue := by
  rw [pending, hd]
  rfl

section Actions

variable [CryptoSuite] {b : Block} {clock : WallClock}

def act (d : FailingStore) : StoreAction → FailingStore
  | .submit tx => d.mapEngine (·.map (Ledger.submit tx))
  | .close => d.mapEngine (·.map Ledger.close)
  | .fail builds loads => d.mapEngine fun s => { s with failBuild := builds, failLoad := loads }
  | .load b => (d.load b).2
  | .build clock => (d.build clock).2
  | .commit signatures => (d.commit signatures).2
  | .add b => (d.add b).2
  | .verifySignature s => (d.verifySignature s).2
  | .stop => d.stop

def after (d : FailingStore) (actions : List StoreAction) : FailingStore := actions.foldl act d

/-- The action commits a block. -/
inductive Commits (d : FailingStore) : StoreAction → Block → Prop
  | commit {signatures : List CommitSignature} {s : StagedBlock} (hs : d.staged = some s)
      (hok : (d.commit signatures).1 = .ok ()) : Commits d (.commit signatures) s.block
  | add {b : WitnessedBlock} (hok : (d.add b).1 = .ok ()) : Commits d (.add b) b.block

/-- A staged block is given up. -/
theorem unstage_keeps (d : FailingStore) : Keeps d d.unstage ∧ d.unstage.staged = none := by
  unfold unstage
  split
  next s hs =>
    refine ⟨⟨?_, rfl, fun _ => nofun⟩, rfl⟩
    rw [pending, pending, hs]
    rfl
  next hs => exact ⟨⟨rfl, rfl, fun h => h⟩, hs⟩

/-- Loading a block fails or succeeds, and the engine stays the same. -/
theorem load_settled (b : Block) (s : FailingEngine Ledger) :
    ∃ r, BlockEngine.settle (BlockEngine.load b s) = (r, s) ∧
      ((∃ e, r = .error e) ∨ r = .ok ⟨b, []⟩) := by
  have hload : BlockEngine.load b s = FailingEngine.load b s := rfl
  rw [hload, FailingEngine.load]
  split
  · exact ⟨_, rfl, .inl ⟨_, rfl⟩⟩
  · rcases hcall : s.engine.load b with ⟨q, l⟩
    have hengine : BlockEngine.load b s.engine = (q, l) := hcall
    simp only [hengine]
    obtain ⟨rfl, ⟨rfl, _⟩ | ⟨e, rfl⟩⟩ := Ledger.load_cases hcall
    · exact ⟨_, rfl, .inr rfl⟩
    · exact ⟨_, rfl, .inl ⟨_, rfl⟩⟩

/-- A build fails and puts back what it has taken, or has taken the first transactions of the queue. -/
theorem build_settled {now : Timestamp} (hread : clock.read = .ok now) (s : FailingEngine Ledger) :
    ∃ r s' q s'', BlockEngine.build clock s = (.ok r, s') ∧
      BlockEngine.settle (r, s') = (q, s'') ∧
      (((∃ e, q = .error e) ∧ s'' = s) ∨
        ∃ t, q = .ok t ∧ t.block.transactions = t.requeue ∧
          t.requeue ++ s''.engine.queue = s.engine.queue ∧
          s''.engine.blocks = s.engine.blocks) := by
  have hbuild : BlockEngine.build clock s = ((s.engine.build clock).1.map s.afterBuild,
      { s with engine := (s.engine.build clock).2 }) := rfl
  rcases hcall : s.engine.build clock with ⟨p, l⟩
  rw [hbuild, hcall]
  rcases Ledger.build_takes hread hcall with ⟨⟨e, rfl⟩, rfl⟩ | ⟨rfl, t, rfl, hholds, htaken⟩
  · exact ⟨_, _, _, _, rfl, rfl, .inl ⟨⟨_, rfl⟩, rfl⟩⟩
  · have hqueue : t.requeue ++ s.engine.queue.drop s.engine.maxTransactions = s.engine.queue := by
      rw [htaken, List.take_append_drop]
    have hafter : (Except.ok (.ok t) : Except Fault (Except (Refusal _ LedgerError) _)).map s.afterBuild =
        .ok (if s.failBuild then .error ⟨some t, .buildFailed⟩ else .ok t) := rfl
    by_cases hfail : s.failBuild = true
    · rw [hafter, if_pos hfail]
      refine ⟨_, _, _, _, rfl, rfl, .inl ⟨⟨_, rfl⟩, ?_⟩⟩
      show FailingEngine.map (Ledger.rollback t) _ = s
      simp only [FailingEngine.map, Ledger.rollback, hqueue]
    · rw [hafter, if_neg hfail]
      exact ⟨_, _, _, _, rfl, rfl, .inr ⟨t, rfl, hholds, hqueue, rfl⟩⟩

/-- A block that is loaded has taken nothing. -/
theorem load_keeps (d : FailingStore) (b : Block) : Keeps d (d.load b).2 := by
  rcases h : d.load b with ⟨r, d'⟩
  rcases ifOpen_cases h with ⟨rfl, _⟩ | ⟨_, _, hop⟩
  · exact .refl d'
  obtain ⟨hkeeps, hnone⟩ := unstage_keeps d
  obtain ⟨q, hsettle, ⟨e, rfl⟩ | rfl⟩ := load_settled b d.unstage.engine
  · simp only [hsettle] at hop
    cases hop
    exact hkeeps
  · simp only [hsettle] at hop
    cases hop
    refine hkeeps.trans ⟨?_, rfl, fun _ s hs => ?_⟩
    · rw [pending_unstaged hnone]
      rfl
    · cases hs
      exact List.nil_subset _

/-- A build moves transactions from the queue to the staged block, unless it fails. -/
theorem build_keeps (hclock : ¬ d.BreaksOff (.build clock)) : Keeps d (d.build clock).2 := by
  rcases h : d.build clock with ⟨r, d'⟩
  rcases ifOpen_cases h with ⟨rfl, _⟩ | ⟨hrunning, hopen, hop⟩
  · exact .refl d'
  obtain ⟨hkeeps, hnone⟩ := unstage_keeps d
  have hread : ∃ now, clock.read = .ok now := by
    cases hread : clock.read with
    | error fault => exact absurd (.build hrunning hopen hread) hclock
    | ok now => exact ⟨now, rfl⟩
  obtain ⟨now, hread⟩ := hread
  obtain ⟨_, s, q, s', hbuild, hsettle, ⟨⟨e, rfl⟩, rfl⟩ | ⟨t, rfl, hholds, hqueue, hblocks⟩⟩ :=
    build_settled hread d.unstage.engine
  · simp only [hbuild, hsettle] at hop
    cases hop
    exact hkeeps
  · simp only [hbuild, hsettle] at hop
    cases hop
    refine hkeeps.trans ⟨?_, hblocks, fun _ s hs => ?_⟩
    · rw [pending_unstaged hnone]
      exact hqueue
    · cases hs
      exact hholds ▸ List.Subset.refl _

/-- A build that cannot tell the time of day loses what it has taken. -/
theorem build_breaksOff (hclock : d.BreaksOff (.build clock)) :
    (d.build clock).1 = .error .stopped ∧
      (d.build clock).2.pending = d.pending.drop d.engine.engine.maxTransactions ∧
      (d.build clock).2.blocks = d.blocks ∧ (d.build clock).2.HoldsTaken := by
  cases hclock with
  | @build _ fault hrunning hopen hread =>
    rcases h : d.build clock with ⟨r, d'⟩
    rcases ifOpen_cases h with ⟨_, ⟨hstopped, _⟩ | ⟨hclosed, _⟩⟩ | ⟨_, _, hop⟩
    · exact nomatch hrunning.symm.trans hstopped
    · exact nomatch hopen.symm.trans hclosed
    obtain ⟨hkeeps, hnone⟩ := unstage_keeps d
    have hsame : d.unstage.engine.engine.closed = d.engine.engine.closed ∧
        d.unstage.engine.engine.maxTransactions = d.engine.engine.maxTransactions := by
      unfold unstage
      split
      · exact ⟨rfl, rfl⟩
      · exact ⟨rfl, rfl⟩
    have hbuild : BlockEngine.build clock d.unstage.engine =
        ((d.unstage.engine.engine.build clock).1.map d.unstage.engine.afterBuild,
          { d.unstage.engine with engine := (d.unstage.engine.engine.build clock).2 }) := rfl
    rw [Ledger.build_fault (hsame.1.trans hopen) hread] at hbuild
    simp only [hbuild] at hop
    cases hop
    refine ⟨rfl, ?_, hkeeps.blocks_eq, fun s hs => nomatch hnone.symm.trans hs⟩
    rw [← hkeeps.pending_eq, pending_unstaged hnone, ← hsame.2]
    exact pending_unstaged hnone

/-- A staged block is committed, or given up. -/
theorem commit_settled {t : StagedBlock} {w : Witness} {s : FailingEngine Ledger}
    {r : Except (FailingError LedgerError) Unit}
    (hpending : d.pending = t.requeue ++ d.engine.engine.queue)
    (hholds : t.requeue ⊆ t.block.transactions)
    (h : BlockEngine.commit t w d.engine = (r, s)) (hengine : d'.engine = s)
    (hnone : d'.staged = none) :
    (r = .ok () ∧ Releases d d' t.block) ∨ ((∃ e, r = .error e) ∧ Keeps d d') := by
  have hqueue : d'.pending = s.engine.queue := by
    rw [pending, hnone, hengine]
    rfl
  have hempty : d'.HoldsTaken := fun u hu => nomatch hnone.symm.trans hu
  rcases hcall : d.engine.engine.commit t w with ⟨q, l⟩
  have hcommit : BlockEngine.commit t w d.engine = ((d.engine.engine.commit t w).1.mapError .own,
      { d.engine with engine := (d.engine.engine.commit t w).2 }) := rfl
  rw [hcall] at hcommit
  rw [hcommit] at h
  cases h
  rcases Ledger.commit_drops hcall with ⟨rfl, rfl⟩ | ⟨⟨e, rfl⟩, rfl⟩
  · refine .inl ⟨rfl, ?_, ⟨w, ?_⟩, hempty⟩
    · have htaken : t.requeue.filter (· ∉ t.block.transactions) = [] := by
        rw [List.filter_eq_nil_iff]
        intro tx htx
        simpa using hholds htx
      rw [hqueue, hpending, List.filter_append, htaken]
      rfl
    · rw [blocks, hengine]
      rfl
  · refine .inr ⟨⟨_, rfl⟩, hqueue.trans hpending.symm, ?_, fun _ => hempty⟩
    rw [blocks, hengine]
    rfl

/-- A block is added, or nothing changes but that nothing is staged any more. -/
theorem add_spec (d : FailingStore) (wb : WitnessedBlock) :
    ((d.add wb).1 = .ok () ∧ Releases d (d.add wb).2 wb.block) ∨
      ((∃ e, (d.add wb).1 = .error e) ∧ Keeps d (d.add wb).2) := by
  rcases h : d.add wb with ⟨r, d'⟩
  rcases ifOpen_cases h with ⟨rfl, ⟨_, rfl⟩ | ⟨_, rfl⟩⟩ | ⟨_, _, hop⟩
  · exact .inr ⟨⟨_, rfl⟩, .refl d'⟩
  · exact .inr ⟨⟨_, rfl⟩, .refl d'⟩
  obtain ⟨hkeeps, hnone⟩ := unstage_keeps d
  obtain ⟨q, hsettle, ⟨e, rfl⟩ | rfl⟩ := load_settled wb.block d.unstage.engine
  · simp only [hsettle] at hop
    cases hop
    exact .inr ⟨⟨_, rfl⟩, hkeeps⟩
  · rcases hcommit : BlockEngine.commit (StagedBlock.mk wb.block []) wb.witness d.unstage.engine
      with ⟨p, s⟩
    simp only [hsettle, hcommit] at hop
    cases hop
    have hpending : d.unstage.pending = [] ++ d.unstage.engine.engine.queue := pending_unstaged hnone
    have hengine : ({ d.unstage with engine := s } : FailingStore).engine = s := rfl
    rcases commit_settled hpending (List.nil_subset _) hcommit hengine hnone with
      ⟨rfl, hreleases⟩ | ⟨⟨e, rfl⟩, hkeeps'⟩
    · exact .inl ⟨rfl, hkeeps.releases hreleases⟩
    · exact .inr ⟨⟨_, rfl⟩, hkeeps.trans hkeeps'⟩

/-- The staged block is committed, or nothing changes but that nothing is staged any more. -/
theorem commit_spec (hd : d.HoldsTaken) (signatures : List CommitSignature) :
    ((d.commit signatures).1 = .ok () ∧
        ∃ s, d.staged = some s ∧ Releases d (d.commit signatures).2 s.block) ∨
      ((∃ e, (d.commit signatures).1 = .error e) ∧ Keeps d (d.commit signatures).2) := by
  rcases h : d.commit signatures with ⟨r, d'⟩
  rcases ifOpen_cases h with ⟨rfl, ⟨_, rfl⟩ | ⟨_, rfl⟩⟩ | ⟨_, _, hop⟩
  · exact .inr ⟨⟨_, rfl⟩, .refl d'⟩
  · exact .inr ⟨⟨_, rfl⟩, .refl d'⟩
  split at hop
  · cases hop
    exact .inr ⟨⟨_, rfl⟩, .refl _⟩
  · cases hop
    exact .inr ⟨⟨_, rfl⟩, (unstage_keeps d).1⟩
  next t c ht hc =>
    split at hop
    · cases hop
      exact .inr ⟨⟨_, rfl⟩, (unstage_keeps d).1⟩
    next w hw =>
      rcases hcommit : BlockEngine.commit t w d.engine with ⟨p, s⟩
      simp only [hcommit] at hop
      cases hop
      have hpending : d.pending = t.requeue ++ d.engine.engine.queue := by
        rw [pending, ht]
        rfl
      have hengine :
          ({ d with engine := s, staged := none, collector := none } : FailingStore).engine = s := rfl
      rcases commit_settled hpending (hd t ht) hcommit hengine rfl with
        ⟨rfl, hreleases⟩ | ⟨⟨e, rfl⟩, hkeeps⟩
      · exact .inl ⟨rfl, t, ht, hreleases⟩
      · exact .inr ⟨⟨_, rfl⟩, hkeeps⟩

theorem verifySignature_keeps (d : FailingStore) (s : CommitSignature) :
    Keeps d (d.verifySignature s).2 := by
  unfold verifySignature
  split
  · exact .refl d
  · exact ⟨rfl, rfl, fun h => h⟩

theorem stop_keeps (d : FailingStore) : Keeps d d.stop := by
  unfold stop
  split
  · exact .refl d
  · obtain ⟨hpending, hblocks, hholds⟩ := (unstage_keeps d).1
    exact ⟨hpending, hblocks, hholds⟩

theorem submit_spec (d : FailingStore) (tx : Transaction) :
    (d.act (.submit tx)).pending = d.pending ++ [tx] ∧ (d.act (.submit tx)).blocks = d.blocks ∧
      (d.HoldsTaken → (d.act (.submit tx)).HoldsTaken) := by
  refine ⟨?_, rfl, fun h => h⟩
  rw [pending, pending, List.append_assoc]
  rfl

/-- **An action that commits a block** takes from the transactions that wait those in the block. -/
theorem commits_releases {a : StoreAction} (hd : d.HoldsTaken) (h : d.Commits a b) :
    Releases d (d.act a) b := by
  cases h with
  | @commit signatures s hs hok =>
      rcases commit_spec hd signatures with ⟨_, t, ht, hreleases⟩ | ⟨⟨e, he⟩, _⟩
      · cases Option.some.inj (hs.symm.trans ht)
        exact hreleases
      · exact nomatch hok.symm.trans he
  | @add wb hok =>
      rcases add_spec d wb with ⟨_, hreleases⟩ | ⟨⟨e, he⟩, _⟩
      · exact hreleases
      · exact nomatch hok.symm.trans he

/-- **Any other action keeps the transactions that wait**, whether it succeeds or fails. -/
theorem act_keeps {a : StoreAction} (hd : d.HoldsTaken) (hsubmit : ∀ tx, a ≠ .submit tx)
    (hcommit : ∀ b, ¬ d.Commits a b) (hclock : ¬ d.BreaksOff a) : Keeps d (d.act a) := by
  cases a with
  | submit tx => exact absurd rfl (hsubmit tx)
  | close => exact ⟨rfl, rfl, fun h => h⟩
  | fail builds loads => exact ⟨rfl, rfl, fun h => h⟩
  | load b => exact load_keeps d b
  | build clock => exact build_keeps hclock
  | commit signatures =>
      rcases commit_spec hd signatures with ⟨hok, s, hs, _⟩ | ⟨_, hkeeps⟩
      · exact absurd (.commit hs hok) (hcommit s.block)
      · exact hkeeps
  | add wb =>
      rcases add_spec d wb with ⟨hok, _⟩ | ⟨_, hkeeps⟩
      · exact absurd (.add hok) (hcommit wb.block)
      · exact hkeeps
  | verifySignature s => exact verifySignature_keeps d s
  | stop => exact stop_keeps d

/-- What an action is as far as the transactions that wait are concerned. -/
theorem act_cases (hd : d.HoldsTaken) (a : StoreAction) :
    (∃ tx, a = .submit tx) ∨ (∃ b, Releases d (d.act a) b) ∨ d.BreaksOff a ∨ Keeps d (d.act a) := by
  by_cases hsubmit : ∃ tx, a = .submit tx
  · exact .inl hsubmit
  by_cases hcommit : ∃ b, d.Commits a b
  · obtain ⟨b, hb⟩ := hcommit
    exact .inr (.inl ⟨b, commits_releases hd hb⟩)
  by_cases hclock : d.BreaksOff a
  · exact .inr (.inr (.inl hclock))
  · exact .inr (.inr (.inr (act_keeps hd (not_exists.mp hsubmit) (not_exists.mp hcommit) hclock)))

/-- What a build has lost is gone from the front. -/
theorem breaksOff_drops {a : StoreAction} (h : d.BreaksOff a) :
    (d.act a).pending = d.pending.drop d.engine.engine.maxTransactions ∧
      (d.act a).blocks = d.blocks ∧ (d.act a).HoldsTaken := by
  cases h with
  | build hrunning hopen hread => exact (build_breaksOff (.build hrunning hopen hread)).2

theorem holdsTaken_act (hd : d.HoldsTaken) (a : StoreAction) : (d.act a).HoldsTaken := by
  rcases act_cases hd a with ⟨tx, rfl⟩ | ⟨b, hreleases⟩ | hclock | hkeeps
  · exact (submit_spec d tx).2.2 hd
  · exact hreleases.holds
  · exact (breaksOff_drops hclock).2.2
  · exact hkeeps.holds hd

theorem holdsTaken_after (hd : d.HoldsTaken) (actions : List StoreAction) :
    (d.after actions).HoldsTaken := by
  induction actions generalizing d with
  | nil => exact hd
  | cons a rest ih => exact ih (holdsTaken_act hd a)

/-- The transactions that are submitted on the way. -/
def submitted (actions : List StoreAction) : List Transaction :=
  actions.filterMap fun
    | .submit tx => some tx
    | _ => none

/-- **Transactions are not reordered and none comes twice.** What waits are some of the transactions that
waited at first or came since, in that order. -/
theorem pending_sublist (hd : d.HoldsTaken) (actions : List StoreAction) :
    (d.after actions).pending.Sublist (d.pending ++ submitted actions) := by
  induction actions generalizing d with
  | nil =>
      rw [submitted, List.filterMap_nil, List.append_nil]
      exact .refl _
  | cons a rest ih =>
      have hrest : (submitted rest).Sublist (submitted (a :: rest)) :=
        (List.sublist_cons_self a rest).filterMap _
      refine (ih (holdsTaken_act hd a)).trans ?_
      rcases act_cases hd a with ⟨tx, rfl⟩ | ⟨b, hreleases⟩ | hclock | hkeeps
      · rw [(submit_spec d tx).1, List.append_assoc]
        exact .refl _
      · rw [hreleases.pending_eq]
        exact List.filter_sublist.append hrest
      · rw [(breaksOff_drops hclock).1]
        exact (List.drop_sublist _ _).append hrest
      · rw [hkeeps.pending_eq]
        exact (List.Sublist.refl _).append hrest

/-- The transaction waits or is in a stored block. -/
def Accounts (d : FailingStore) (tx : Transaction) : Prop :=
  tx ∈ d.pending ∨ ∃ b ∈ d.blocks, tx ∈ b.block.transactions

theorem accounts_act {tx : Transaction} (hd : d.HoldsTaken) {a : StoreAction} (hclock : ¬ d.BreaksOff a)
    (h : d.Accounts tx) : (d.act a).Accounts tx := by
  rcases act_cases hd a with ⟨new, rfl⟩ | ⟨b, hreleases⟩ | hbreaks | hkeeps
  · obtain ⟨hpending, hblocks, _⟩ := submit_spec d new
    rw [Accounts, hpending, hblocks]
    exact h.imp_left (List.mem_append_left _)
  · obtain ⟨w, hblocks⟩ := hreleases.blocks_eq
    rw [Accounts, hreleases.pending_eq, hblocks]
    rcases h with hwaits | ⟨other, hother, htx⟩
    · by_cases htx : tx ∈ b.transactions
      · exact .inr ⟨⟨b, w⟩, by simp, htx⟩
      · exact .inl (List.mem_filter.mpr ⟨hwaits, by simpa using htx⟩)
    · exact .inr ⟨other, List.mem_append_left _ hother, htx⟩
  · exact absurd hbreaks hclock
  · rw [Accounts, hkeeps.pending_eq, hkeeps.blocks_eq]
    exact h

/-- **No transaction is lost** as long as builds can tell the time of day. -/
theorem accounts_after {tx : Transaction} (hd : d.HoldsTaken) {actions : List StoreAction}
    (hclock : ∀ a ∈ actions, a.IsTimely) (h : d.Accounts tx ∨ tx ∈ submitted actions) :
    (d.after actions).Accounts tx := by
  induction actions generalizing d with
  | nil => exact h.resolve_right List.not_mem_nil
  | cons a rest ih =>
      obtain ⟨hfirst, hrest⟩ := List.forall_mem_cons.mp hclock
      refine ih (holdsTaken_act hd a) hrest ?_
      rcases h with h | hsubmitted
      · exact .inl (accounts_act hd (not_breaksOff hfirst) h)
      · by_cases hnew : a = .submit tx
        · rw [hnew]
          refine .inl (.inl ?_)
          rw [(submit_spec d tx).1]
          exact List.mem_append_right _ (List.mem_singleton.mpr rfl)
        · obtain ⟨b, hb, hbtx⟩ := List.mem_filterMap.mp hsubmitted
          rcases List.mem_cons.mp hb with rfl | hb
          · split at hbtx
            · cases hbtx
              exact absurd rfl hnew
            · cases hbtx
          · exact .inr (List.mem_filterMap.mpr ⟨b, hb, hbtx⟩)

/-- **No transaction is lost, duplicated or reordered.** After anything that may have been done before, a
submission adds its transaction at the end of those that wait for a block. What commits a block takes from
them exactly those in the block. Anything else keeps them and the stored blocks, if it succeeds and if it
fails. So what waits are some of the transactions that came, in the order in which they came, and all the
others are in blocks. Builds are to find the system clock in the calendar. -/
theorem pending_kept (engine : FailingEngine Ledger) (actions : List StoreAction) {d : FailingStore}
    (hd : d = after (.start engine) actions) :
    (∀ tx, (d.act (.submit tx)).pending = d.pending ++ [tx] ∧
      (d.act (.submit tx)).blocks = d.blocks) ∧
    (∀ a b, d.Commits a b → (d.act a).pending = d.pending.filter (· ∉ b.transactions) ∧
      ∃ w, (d.act a).blocks = d.blocks ++ [⟨b, w⟩]) ∧
    (∀ a, (∀ tx, a ≠ .submit tx) → (∀ b, ¬ d.Commits a b) → a.IsTimely →
      (d.act a).pending = d.pending ∧ (d.act a).blocks = d.blocks) ∧
    d.pending.Sublist (engine.engine.queue ++ submitted actions) ∧
    ((∀ a ∈ actions, a.IsTimely) →
      ∀ tx, Accounts (.start engine) tx ∨ tx ∈ submitted actions → d.Accounts tx) := by
  have hempty : HoldsTaken (.start engine) := nofun
  have hholds : d.HoldsTaken := by
    rw [hd]
    exact holdsTaken_after hempty actions
  refine ⟨fun tx => ?_, fun a b h => ?_, fun a hsubmit hcommit hclock => ?_, ?_, fun hclock tx htx => ?_⟩
  · exact ⟨(submit_spec d tx).1, (submit_spec d tx).2.1⟩
  · have hreleases := commits_releases hholds h
    exact ⟨hreleases.pending_eq, hreleases.blocks_eq⟩
  · have hkeeps := act_keeps hholds hsubmit hcommit (not_breaksOff hclock)
    exact ⟨hkeeps.pending_eq, hkeeps.blocks_eq⟩
  · rw [hd]
    exact pending_sublist hempty actions
  · rw [hd]
    exact accounts_after hempty hclock htx

end Actions

section Plain

local instance plainPendingSuite : CryptoSuite := plainSuite

/-- A block of validator 0 with the first two transactions is staged, and a third one waits. -/
def stagedStore : FailingStore :=
  after (.start (.ofEngine (plainLedger (n := quartet) 0)))
    [.submit ⟨[1]⟩, .submit ⟨[2]⟩, .build ⟨5⟩, .submit ⟨[3]⟩]

/-- Another block, with the second of the transactions. -/
def plainRival : Block := .build .zero none (.ofNatClamped 9) [⟨[2]⟩]

/-- The other block is added: of the staged one, the first transaction waits again. Another build instead
changes nothing of what waits. -/
theorem pending_kept_rival :
    stagedStore.pending = [⟨[1]⟩, ⟨[2]⟩, ⟨[3]⟩] ∧
      stagedStore.Commits (.add ⟨plainRival, plainWitness plainRival⟩) plainRival ∧
      (stagedStore.act (.add ⟨plainRival, plainWitness plainRival⟩)).pending = [⟨[1]⟩, ⟨[3]⟩] ∧
      (stagedStore.act (.build ⟨6⟩)).pending = [⟨[1]⟩, ⟨[2]⟩, ⟨[3]⟩] ∧
      stagedStore.Accounts ⟨[2]⟩ := by
  have hwaits : stagedStore.pending = [⟨[1]⟩, ⟨[2]⟩, ⟨[3]⟩] := by decide +kernel
  obtain ⟨_, hadd, _⟩ := exists_ok (x := (stagedStore.add ⟨plainRival, plainWitness plainRival⟩).1)
    (P := fun _ => True) (by decide +kernel)
  have hcommits : stagedStore.Commits (.add ⟨plainRival, plainWitness plainRival⟩) plainRival :=
    .add hadd
  have hclock : ∀ a ∈ [StoreAction.submit ⟨[1]⟩, .submit ⟨[2]⟩, .build ⟨5⟩, .submit ⟨[3]⟩], a.IsTimely := by
    simp [StoreAction.IsTimely, WallClock.IsReadable, WallClock.earliest, WallClock.latest]
  obtain ⟨_, hreleases, hkept, _, haccounts⟩ := pending_kept _ _ (rfl : stagedStore = _)
  have hbuild := hkept (.build ⟨6⟩) nofun nofun (by decide : WallClock.IsReadable ⟨6⟩)
  refine ⟨hwaits, hcommits, ?_, hbuild.1.trans hwaits, haccounts hclock ⟨[2]⟩ (.inr ?_)⟩
  · rw [(hreleases _ _ hcommits).1, hwaits]
    decide
  · decide

end Plain

end Database

end QuorumChain
