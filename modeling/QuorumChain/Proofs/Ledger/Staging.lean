import QuorumChain.Executor
import QuorumChain.Proofs.Ledger.Collector

/-! What the operations of a database on a ledger do. Each of them stages a block that extends the
chain, stores a block, or fails and leaves the chain as it is. -/

namespace QuorumChain

/-- A ledger with a block staged on it. -/
abbrev Store := Database Ledger StagedBlock SignatureCollector

/-- The result of a task that failed. -/
def Completion.IsFailure {ε : Type} : Completion ε → Prop
  | .loaded _ r => ∃ e, r = .error e
  | .added _ r => ∃ e, r = .error e
  | .built r => ∃ e, r = .error e
  | .committed _ r => ∃ e, r = .error e

namespace Database

variable {d d' : Store} {b : Block} {s : StagedBlock}

/-- An operation that fails: what was staged stays or is given up, and nothing is stored. -/
inductive Fails (d : Store) : Store → Prop
  | kept : Fails d d
  | emptied {d' : Store} (hengine : d.engine.Requeued d'.engine) (hstaged : d'.staged = none)
      (hcollector : d'.collector = none) (hstopped : d.stopped = true → d'.stopped = true) :
      Fails d d'

theorem Fails.blocks_eq (h : Fails d d') : d'.engine.blocks = d.engine.blocks := by
  cases h with
  | kept => rfl
  | emptied hengine _ _ _ => exact hengine.blocks_eq

theorem Fails.settings_eq (h : Fails d d') :
    d'.engine.key = d.engine.key ∧ d'.engine.peers = d.engine.peers := by
  cases h with
  | kept => exact ⟨rfl, rfl⟩
  | emptied hengine _ _ _ => exact hengine.settings_eq

theorem Fails.staged_eq (h : Fails d d') (hs : d'.staged = some s) : d.staged = some s := by
  cases h with
  | kept => exact hs
  | emptied _ hstaged _ _ => exact nomatch hstaged.symm.trans hs

variable [CryptoSuite]

/-- A staged block could be stored, and there is a collector for it and for nothing else. -/
structure Sound (d : Store) : Prop where
  extends_chain : ∀ s, d.staged = some s → d.engine.checkExtends s.block = .ok ()
  collects : ∀ s, d.staged = some s → ∃ c, d.collector = some c ∧ c.Fits d.engine s.block
  empty : d.staged = none → d.collector = none

/-- An operation that stages a block with a fresh collector. -/
structure Stages (d d' : Store) (s : StagedBlock) : Prop where
  engine : d.engine.Requeued d'.engine
  staged : d'.staged = some s
  collector : d'.collector = some (d'.engine.collector s)
  stopped : d'.stopped = d.stopped
  extends_chain : d.engine.checkExtends s.block = .ok ()

/-- An operation that stores a block, after which nothing is staged. -/
structure Stores (d d' : Store) (b : WitnessedBlock) : Prop where
  engine : ∃ queue, d'.engine = { d.engine with queue, blocks := d.engine.blocks ++ [b] }
  staged : d'.staged = none
  collector : d'.collector = none
  stopped : d'.stopped = d.stopped
  fit : d.engine.checkCommit b.block b.witness = .ok ()

theorem Stores.blocks_eq {b : WitnessedBlock} (h : Stores d d' b) :
    d'.engine.blocks = d.engine.blocks ++ [b] := by
  obtain ⟨queue, hengine⟩ := h.engine
  rw [hengine]

namespace Sound

/-- A collector collects for the block that is staged. -/
theorem staged_of_collector (h : d.Sound) {c : SignatureCollector} (hc : d.collector = some c) :
    ∃ s, d.staged = some s ∧ c.Fits d.engine s.block := by
  cases hs : d.staged with
  | none => exact nomatch (h.empty hs).symm.trans hc
  | some s =>
      obtain ⟨c', hc', hfits⟩ := h.collects s hs
      cases Option.some.inj (hc.symm.trans hc')
      exact ⟨s, rfl, hfits⟩

theorem start (l : Ledger) : Sound (.start l) :=
  ⟨nofun, nofun, fun _ => rfl⟩

theorem fails (h : d.Sound) (hd : Fails d d') : d'.Sound := by
  cases hd with
  | kept => exact h
  | emptied _ hstaged hcollector _ =>
      refine ⟨fun s hs => ?_, fun s hs => ?_, fun _ => hcollector⟩
      · exact nomatch hstaged.symm.trans hs
      · exact nomatch hstaged.symm.trans hs

theorem stages (hd : Stages d d' s) : d'.Sound := by
  refine ⟨fun t ht => ?_, fun t ht => ?_, fun hnone => nomatch hd.staged.symm.trans hnone⟩
  · cases Option.some.inj (hd.staged.symm.trans ht)
    rw [hd.engine.checkExtends_eq]
    exact hd.extends_chain
  · cases Option.some.inj (hd.staged.symm.trans ht)
    exact ⟨_, hd.collector, .fresh d'.engine s⟩

theorem stores {wb : WitnessedBlock} (hd : Stores d d' wb) : d'.Sound := by
  refine ⟨fun s hs => ?_, fun s hs => ?_, fun _ => hd.collector⟩
  · exact nomatch hd.staged.symm.trans hs
  · exact nomatch hd.staged.symm.trans hs

/-- Nothing changes if the queue does, or if the engine is closed. -/
theorem mapEngine (h : d.Sound) {l : Ledger} (hkey : l.key = d.engine.key)
    (hpeers : l.peers = d.engine.peers) (hblocks : l.blocks = d.engine.blocks) :
    Sound { d with engine := l } where
  extends_chain s hs := by
    have hext := Ledger.checkExtends_eq_ok.mp (h.extends_chain s hs)
    rw [Ledger.checkExtends_eq_ok]
    simpa only [Ledger.nextHeight, Ledger.bestId, hblocks] using hext
  collects s hs := by
    obtain ⟨c, hc, hfits⟩ := h.collects s hs
    exact ⟨c, hc, hfits.transfer hkey hpeers⟩
  empty := h.empty

theorem withCollector (h : d.Sound) {c c' : SignatureCollector} {t : CommitSignature}
    (hc : d.collector = some c) (ht : c.apply t = .ok c') :
    Sound { d with collector := some c' } where
  extends_chain := h.extends_chain
  collects s hs := by
    obtain ⟨c₀, hc₀, hfits⟩ := h.collects s hs
    cases Option.some.inj (hc₀.symm.trans hc)
    exact ⟨c', rfl, hfits.apply ht⟩
  empty hnone := nomatch (h.empty hnone).symm.trans hc

end Sound

theorem unstage_spec (d : Store) :
    d.engine.Requeued d.unstage.engine ∧ d.unstage.staged = none ∧ d.unstage.collector = none ∧
      d.unstage.stopped = d.stopped := by
  unfold unstage
  split
  next s _ => exact ⟨Ledger.rollback_requeued s d.engine, rfl, rfl, rfl⟩
  next hnone => exact ⟨.refl _, hnone, rfl, rfl⟩

theorem unstage_fails (d : Store) : Fails d d.unstage := by
  obtain ⟨hengine, hstaged, hcollector, hstopped⟩ := unstage_spec d
  exact .emptied hengine hstaged hcollector fun h => hstopped.trans h

omit [CryptoSuite] in
theorem ifOpen_cases {σ β ω ε α : Type} [BlockEngine σ β ω ε] {d d' : Database σ β ω}
    {op : Answer ε σ β ω α} {r : Except (DatabaseError ε) α} (h : d.ifOpen op = (r, d')) :
    (d' = d ∧ ((d.stopped = true ∧ r = .error .stopped) ∨
        (BlockEngine.isClosed d.engine = true ∧ r = .error .engineClosed))) ∨
      (d.stopped = false ∧ BlockEngine.isClosed d.engine = false ∧ op = (r, d')) := by
  unfold ifOpen at h
  split at h
  next hs =>
    cases h
    exact .inl ⟨rfl, .inl ⟨hs, rfl⟩⟩
  next hs =>
    split at h
    next hc =>
      cases h
      exact .inl ⟨rfl, .inr ⟨hc, rfl⟩⟩
    next hc => exact .inr ⟨Bool.eq_false_iff.mpr hs, Bool.eq_false_iff.mpr hc, h⟩

theorem load_cases {r : Except (DatabaseError LedgerError) CommitSignature}
    (h : d.load b = (r, d')) :
    (∃ e, r = .error e ∧ Fails d d') ∨
      (r = .ok (.sign b.id d.engine.key) ∧ Stages d d' ⟨b, []⟩) := by
  rcases ifOpen_cases h with ⟨rfl, ⟨_, hr⟩ | ⟨_, hr⟩⟩ | ⟨_, _, hop⟩
  · exact .inl ⟨_, hr, .kept⟩
  · exact .inl ⟨_, hr, .kept⟩
  obtain ⟨hengine, hstaged, hcollector, hstopped⟩ := unstage_spec d
  rcases hload : d.unstage.engine.load b with ⟨q, l⟩
  have hcall : BlockEngine.load b d.unstage.engine = (q, l) := hload
  simp only [hcall] at hop
  obtain ⟨rfl, ⟨rfl, hcheck⟩ | ⟨e, rfl⟩⟩ := Ledger.load_cases hload
  · cases hop
    refine .inr ⟨?_, hengine, rfl, rfl, hstopped, ?_⟩
    · obtain ⟨queue, hqueue⟩ := hengine
      show Except.ok (CommitSignature.sign b.id d.unstage.engine.key) = _
      rw [hqueue]
    · rw [← hengine.checkExtends_eq]
      exact (Ledger.check_eq_ok.mp hcheck).2.2.2
  · cases hop
    exact .inl ⟨_, rfl, unstage_fails d⟩

theorem build_cases {clock : WallClock}
    {r : Except (DatabaseError LedgerError) (Block × CommitSignature)}
    (h : d.build clock = (r, d')) :
    (∃ e, r = .error e ∧ Fails d d') ∨
      ∃ s, r = .ok (s.block, .sign s.block.id d.engine.key) ∧ Stages d d' s := by
  rcases ifOpen_cases h with ⟨rfl, ⟨_, hr⟩ | ⟨_, hr⟩⟩ | ⟨_, _, hop⟩
  · exact .inl ⟨_, hr, .kept⟩
  · exact .inl ⟨_, hr, .kept⟩
  obtain ⟨hengine, hstaged, hcollector, hstopped⟩ := unstage_spec d
  rcases hbuild : d.unstage.engine.build clock with ⟨q, l⟩
  have hcall : BlockEngine.build clock d.unstage.engine = (q, l) := hbuild
  simp only [hcall] at hop
  obtain ⟨hqueued, ⟨fault, rfl⟩ | ⟨e, rfl⟩ | ⟨s, rfl, hextends⟩⟩ := Ledger.build_cases hbuild
  · cases hop
    exact .inl ⟨_, rfl, .emptied (hengine.trans hqueued) hstaged hcollector fun _ => rfl⟩
  · cases hop
    exact .inl ⟨_, rfl, .emptied (hengine.trans hqueued) hstaged hcollector fun h => hstopped.trans h⟩
  · cases hop
    refine .inr ⟨s, ?_, hengine.trans hqueued, rfl, rfl, hstopped, ?_⟩
    · obtain ⟨queue, rfl⟩ := hengine.trans hqueued
      rfl
    · rw [← hengine.checkExtends_eq]
      exact hextends

theorem add_cases {wb : WitnessedBlock} {r : Except (DatabaseError LedgerError) Unit}
    (h : d.add wb = (r, d')) :
    (∃ e, r = .error e ∧ Fails d d') ∨ (r = .ok () ∧ Stores d d' wb) := by
  rcases ifOpen_cases h with ⟨rfl, ⟨_, hr⟩ | ⟨_, hr⟩⟩ | ⟨_, _, hop⟩
  · exact .inl ⟨_, hr, .kept⟩
  · exact .inl ⟨_, hr, .kept⟩
  obtain ⟨hengine, hstaged, hcollector, hstopped⟩ := unstage_spec d
  rcases hload : d.unstage.engine.load wb.block with ⟨q, l⟩
  have hcall : BlockEngine.load wb.block d.unstage.engine = (q, l) := hload
  simp only [hcall] at hop
  obtain ⟨rfl, ⟨rfl, hcheck⟩ | ⟨e, rfl⟩⟩ := Ledger.load_cases hload
  · rcases hcommit : d.unstage.engine.commit ⟨wb.block, []⟩ wb.witness with ⟨q, l⟩
    have hcall : BlockEngine.commit (σ := Ledger) (StagedBlock.mk wb.block []) wb.witness
        d.unstage.engine = (q, l) := hcommit
    simp only [BlockEngine.settle, hcall] at hop
    cases hop
    rcases Ledger.commit_cases hcommit with ⟨rfl, hfit, queue, hl⟩ | ⟨e, rfl, _, hqueued⟩
    · refine .inr ⟨rfl, ?_, hstaged, hcollector, hstopped, ?_⟩
      · obtain ⟨queue', hqueue'⟩ := hengine
        refine ⟨queue, ?_⟩
        rw [hl, hqueue']
      · rw [← hengine.checkCommit_eq]
        exact hfit
    · exact .inl ⟨_, rfl, .emptied (hengine.trans hqueued) hstaged hcollector fun h => hstopped.trans h⟩
  · cases hop
    exact .inl ⟨_, rfl, unstage_fails d⟩

theorem witness_eq (c : SignatureCollector) :
    BlockEngine.witness Ledger c =
      if c.isComplete then .ok ⟨c.signatures⟩
      else .error (.witnessIncomplete c.signatures.length c.threshold) := rfl

theorem commit_cases {signatures : List CommitSignature}
    {r : Except (DatabaseError LedgerError) Unit} (h : d.commit signatures = (r, d')) :
    (∃ e, r = .error e ∧ Fails d d') ∨
      (r = .ok () ∧ ∃ s c, d.staged = some s ∧ d.collector = some c ∧
        Stores d d' ⟨s.block, ⟨(applyAll (σ := Ledger) c signatures).signatures⟩⟩) := by
  rcases ifOpen_cases h with ⟨rfl, ⟨_, hr⟩ | ⟨_, hr⟩⟩ | ⟨_, _, hop⟩
  · exact .inl ⟨_, hr, .kept⟩
  · exact .inl ⟨_, hr, .kept⟩
  split at hop
  · cases hop
    exact .inl ⟨_, rfl, .kept⟩
  · cases hop
    exact .inl ⟨_, rfl, unstage_fails d⟩
  next s c hs hc =>
    rw [witness_eq] at hop
    split at hop
    · cases hop
      exact .inl ⟨_, rfl, unstage_fails d⟩
    next w hw =>
      split at hw
      · cases hw
        rcases hcommit : d.engine.commit s ⟨(applyAll (σ := Ledger) c signatures).signatures⟩
          with ⟨q, l⟩
        have hcall : BlockEngine.commit s ⟨(applyAll (σ := Ledger) c signatures).signatures⟩
            d.engine = (q, l) := hcommit
        simp only [hcall] at hop
        cases hop
        rcases Ledger.commit_cases hcommit with ⟨rfl, hfit, hl⟩ | ⟨e, rfl, _, hqueued⟩
        · exact .inr ⟨rfl, s, c, hs, hc, hl, rfl, rfl, rfl, hfit⟩
        · exact .inl ⟨_, rfl, .emptied hqueued rfl rfl fun h => h⟩
      · cases hw

/-- A commit succeeds if what it needs is there. -/
theorem commit_eq_ok {signatures : List CommitSignature} {c : SignatureCollector}
    (hrunning : d.stopped = false) (hopen : d.engine.closed = false) (hs : d.staged = some s)
    (hc : d.collector = some c)
    (hcomplete : (applyAll (σ := Ledger) c signatures).isComplete = true)
    (hfit : d.engine.checkCommit s.block
      ⟨(applyAll (σ := Ledger) c signatures).signatures⟩ = .ok ()) :
    (d.commit signatures).1 = .ok () := by
  have hclosed : BlockEngine.isClosed d.engine = false := hopen
  rcases hcommit : d.engine.commit s ⟨(applyAll (σ := Ledger) c signatures).signatures⟩ with ⟨q, l⟩
  have hcall : BlockEngine.commit s ⟨(applyAll (σ := Ledger) c signatures).signatures⟩
      d.engine = (q, l) := hcommit
  simp only [commit, ifOpen, hrunning, hclosed, hs, hc, witness_eq, hcomplete, hcall,
    Bool.false_eq_true, if_false, if_true]
  rcases Ledger.commit_cases hcommit with ⟨rfl, _⟩ | ⟨e, _, he, _⟩
  · rfl
  · exact nomatch he.symm.trans hfit

theorem verifySignature_cases {t : CommitSignature} {valid : Bool}
    (h : d.verifySignature t = (valid, d')) :
    (valid = false ∧ d' = d) ∨
      (valid = true ∧ ∃ c c', d.collector = some c ∧ c.apply t = .ok c' ∧
        d' = { d with collector := some c' }) := by
  unfold verifySignature at h
  split at h
  · cases h
    exact .inl ⟨rfl, rfl⟩
  next c hc =>
    rcases happly : BlockEngine.applySignature Ledger t c with ⟨r, c'⟩
    simp only [happly] at h
    cases h
    rcases SignatureCollector.applySignature_cases happly with ⟨rfl, hok⟩ | ⟨e, rfl, rfl⟩
    · exact .inr ⟨rfl, c, c', hc, hok, rfl⟩
    · refine .inl ⟨rfl, ?_⟩
      rw [← hc]

/-! Only a build that cannot tell the time of day stops a database. -/

theorem load_stopped (d : Store) (b : Block) : (d.load b).2.stopped = d.stopped := by
  obtain ⟨_, _, _, hstopped⟩ := unstage_spec d
  unfold load ifOpen
  split
  · rfl
  · split
    · rfl
    · dsimp only
      split
      · exact hstopped
      · exact hstopped

theorem build_stopped {clock : WallClock} {now : Timestamp} (d : Store) (hread : clock.read = .ok now) :
    (d.build clock).2.stopped = d.stopped := by
  obtain ⟨_, _, _, hstopped⟩ := unstage_spec d
  unfold build ifOpen
  split
  · rfl
  · split
    · rfl
    · dsimp only
      split
      next fault engine hbuild =>
        have hbuild : d.unstage.engine.build clock = (.error fault, engine) := hbuild
        unfold Ledger.build at hbuild
        rw [hread] at hbuild
        split at hbuild
        · cases hbuild
        · cases hbuild
      next r engine _ =>
        split
        · exact hstopped
        · exact hstopped

theorem add_stopped (d : Store) (b : WitnessedBlock) : (d.add b).2.stopped = d.stopped := by
  obtain ⟨_, _, _, hstopped⟩ := unstage_spec d
  unfold add ifOpen
  split
  · rfl
  · split
    · rfl
    · dsimp only
      split
      · exact hstopped
      · exact hstopped

theorem commit_stopped (d : Store) (signatures : List CommitSignature) :
    (d.commit signatures).2.stopped = d.stopped := by
  obtain ⟨_, _, _, hstopped⟩ := unstage_spec d
  unfold commit ifOpen
  split
  · rfl
  · split
    · rfl
    · split
      · rfl
      · exact hstopped
      · split
        · exact hstopped
        · rfl

theorem verifySignature_stopped (d : Store) (s : CommitSignature) :
    (d.verifySignature s).2.stopped = d.stopped := by
  unfold verifySignature
  split
  · rfl
  · rfl

/-- Does a task, and says what became of it. -/
def perform (clock : WallClock) (d : Store) : Task → Completion LedgerError × Store
  | .load b => (.loaded b (d.load b).1, (d.load b).2)
  | .add height b => (.added height (d.add b).1, (d.add b).2)
  | .build => (.built (d.build clock).1, (d.build clock).2)
  | .commit b signatures => (.committed b (d.commit signatures).1, (d.commit signatures).2)

theorem perform_stopped {clock : WallClock} {now : Timestamp} (hread : clock.read = .ok now) (d : Store)
    (task : Task) : (d.perform clock task).2.stopped = d.stopped := by
  cases task with
  | load b => exact d.load_stopped b
  | add height b => exact d.add_stopped b
  | build => exact d.build_stopped hread
  | commit b signatures => exact d.commit_stopped signatures

/-- What comes of a task. -/
inductive Performs (d : Store) : Task → Completion LedgerError → Store → Prop
  | loaded {b : Block} {d' : Store} (h : Stages d d' ⟨b, []⟩) :
      Performs d (.load b) (.loaded b (.ok (.sign b.id d.engine.key))) d'
  | built {s : StagedBlock} {d' : Store} (h : Stages d d' s) :
      Performs d .build (.built (.ok (s.block, .sign s.block.id d.engine.key))) d'
  | added {height : Height} {b : WitnessedBlock} {d' : Store} (h : Stores d d' b) :
      Performs d (.add height b) (.added height (.ok ())) d'
  | committed {b : Block} {signatures : List CommitSignature} {s : StagedBlock}
      {c : SignatureCollector} {d' : Store} (hs : d.staged = some s) (hc : d.collector = some c)
      (h : Stores d d' ⟨s.block, ⟨(applyAll (σ := Ledger) c signatures).signatures⟩⟩) :
      Performs d (.commit b signatures) (.committed b (.ok ())) d'
  | failed {task : Task} {result : Completion LedgerError} {d' : Store}
      (hresult : result.IsFailure) (h : Fails d d') : Performs d task result d'

theorem perform_cases {clock : WallClock} {task : Task} {result : Completion LedgerError}
    (h : d.perform clock task = (result, d')) : d.Performs task result d' := by
  cases task with
  | load b =>
      rcases hop : d.load b with ⟨r, d₁⟩
      simp only [perform, hop] at h
      cases h
      rcases load_cases hop with ⟨e, rfl, hd⟩ | ⟨rfl, hd⟩
      · exact .failed ⟨e, rfl⟩ hd
      · exact .loaded hd
  | add height b =>
      rcases hop : d.add b with ⟨r, d₁⟩
      simp only [perform, hop] at h
      cases h
      rcases add_cases hop with ⟨e, rfl, hd⟩ | ⟨rfl, hd⟩
      · exact .failed ⟨e, rfl⟩ hd
      · exact .added hd
  | build =>
      rcases hop : d.build clock with ⟨r, d₁⟩
      simp only [perform, hop] at h
      cases h
      rcases build_cases hop with ⟨e, rfl, hd⟩ | ⟨s, rfl, hd⟩
      · exact .failed ⟨e, rfl⟩ hd
      · exact .built hd
  | commit b signatures =>
      rcases hop : d.commit signatures with ⟨r, d₁⟩
      simp only [perform, hop] at h
      cases h
      rcases commit_cases hop with ⟨e, rfl, hd⟩ | ⟨rfl, s, c, hs, hc, hd⟩
      · exact .failed ⟨e, rfl⟩ hd
      · exact .committed hs hc hd

/-- A task leaves the blocks as they are, or stores the block that it adds or commits. -/
theorem Performs.blocks_cases {task : Task} {result : Completion LedgerError}
    (h : d.Performs task result d') :
    (d'.engine.blocks = d.engine.blocks ∧ ∀ b, result ≠ .committed b (.ok ())) ∨
      (∃ height b, task = .add height b ∧ result = .added height (.ok ()) ∧
        d'.engine.blocks = d.engine.blocks ++ [b]) ∨
      ∃ b signatures w, task = .commit b signatures ∧ result = .committed b (.ok ()) ∧
        d'.engine.blocks = d.engine.blocks ++ [w] := by
  cases h with
  | loaded hd => exact .inl ⟨hd.engine.blocks_eq, fun b heq => by cases heq⟩
  | built hd => exact .inl ⟨hd.engine.blocks_eq, fun b heq => by cases heq⟩
  | added hd => exact .inr (.inl ⟨_, _, rfl, rfl, hd.blocks_eq⟩)
  | committed _ _ hd => exact .inr (.inr ⟨_, _, _, rfl, rfl, hd.blocks_eq⟩)
  | failed hresult hd =>
      refine .inl ⟨hd.blocks_eq, ?_⟩
      rintro b rfl
      obtain ⟨e, he⟩ := hresult
      cases he

theorem Performs.blocks_extend {task : Task} {result : Completion LedgerError}
    (h : d.Performs task result d') : d.engine.blocks <+: d'.engine.blocks := by
  rcases h.blocks_cases with ⟨hblocks, _⟩ | ⟨_, b, _, _, hblocks⟩ | ⟨_, _, w, _, _, hblocks⟩
  · exact hblocks ▸ List.prefix_rfl
  · exact hblocks ▸ List.prefix_append _ _
  · exact hblocks ▸ List.prefix_append _ _

theorem Performs.settings_eq {task : Task} {result : Completion LedgerError}
    (h : d.Performs task result d') :
    d'.engine.key = d.engine.key ∧ d'.engine.peers = d.engine.peers := by
  cases h with
  | loaded hd => exact hd.engine.settings_eq
  | built hd => exact hd.engine.settings_eq
  | added hd =>
      obtain ⟨queue, hengine⟩ := hd.engine
      rw [hengine]
      exact ⟨rfl, rfl⟩
  | committed _ _ hd =>
      obtain ⟨queue, hengine⟩ := hd.engine
      rw [hengine]
      exact ⟨rfl, rfl⟩
  | failed _ hd => exact hd.settings_eq

theorem stop_fails (d : Store) : Fails d d.stop := by
  unfold stop
  split
  · exact .kept
  · obtain ⟨hengine, hstaged, hcollector, _⟩ := unstage_spec d
    exact .emptied hengine hstaged hcollector fun _ => rfl

end Database

theorem Executor.run_eq [CryptoSuite] {n : ValidatorCount} (clock : WallClock) (task : Task)
    (x : Executor n Ledger StagedBlock SignatureCollector) :
    x.run clock task =
      ((x.database.perform clock task).1, { x with database := (x.database.perform clock task).2 }) := by
  cases task <;> rfl

end QuorumChain
