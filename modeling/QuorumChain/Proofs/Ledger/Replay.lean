import QuorumChain.Proofs.Ledger.Chain
import QuorumChain.Proofs.Ledger.Staging

/-! Chains that are copied block by block. What one ledger has stored, in whatever way, another one of the
same validators stores as well, in the same order, whatever else is staged on it between two blocks. -/

namespace QuorumChain

namespace Ledger

/-- The stored blocks without their witnesses. -/
def data (l : Ledger) : List Block := l.blocks.map WitnessedBlock.block

theorem length_data (l : Ledger) : l.data.length = l.blocks.length := List.length_map ..

theorem Requeued.data_eq {l l' : Ledger} (h : l.Requeued l') : l'.data = l.data := by
  rw [data, data, h.blocks_eq]

variable [CryptoSuite] {l a : Ledger} {b : WitnessedBlock} {k : Nat}

theorem Requeued.check_eq {l l' : Ledger} (h : l.Requeued l') (b : Block) : l'.check b = l.check b := by
  obtain ⟨queue, rfl⟩ := h
  rfl

theorem check_error (h : l.closed = false) (hb : b.block.isConsistent = false) :
    l.check b.block = .error .inconsistentPayload := by
  simp [check, h, hb]

theorem idBelow_data (l : Ledger) (k : Nat) : l.idBelow (k + 1) = l.data[k]?.map Block.id := by
  rw [idBelow, data, List.getElem?_map, Option.map_map]
  rfl

/-- The identifier below a height is the same in chains that are the same up to it. -/
theorem idBelow_take (h : l.data = a.data.take k) : l.idBelow k = a.idBelow k := by
  cases k with
  | zero => rfl
  | succ k =>
      rw [idBelow_data, idBelow_data, h, List.getElem?_take_of_lt (Nat.lt_succ_self k)]

/-- **A block of a valid chain extends a copy of the chain below it, and can be stored there.** -/
theorem ValidChain.checkCommit_copy (ha : a.ValidChain) (hb : a.blocks[k]? = some b)
    (hpeers : l.peers = a.peers) (hdata : l.data = a.data.take k) :
    l.checkCommit b.block b.witness = .ok () := by
  have hk : k < a.blocks.length := (List.getElem?_eq_some_iff.mp hb).1
  have hlength : l.blocks.length = k := by
    have htake := congrArg List.length hdata
    rw [length_data, List.length_take, length_data] at htake
    omega
  have hthreshold : l.threshold = a.threshold := by rw [threshold, threshold, hpeers]
  rw [checkCommit_eq_ok, checkExtends_eq_ok, hpeers, hthreshold, nextHeight, bestId_eq, hlength,
    idBelow_take hdata]
  exact ⟨ha.witnessed b (List.mem_of_getElem? hb), ha.height_eq k b hb, ha.parent_eq k b hb⟩

/-- It can be staged there as well, unless it has more transactions than a header can count. -/
theorem ValidChain.check_copy (ha : a.ValidChain) (hb : a.blocks[k]? = some b)
    (hopen : l.closed = false) (hpeers : l.peers = a.peers)
    (hmax : l.maxTransactions = a.maxTransactions) (hdata : l.data = a.data.take k) :
    (b.block.transactions.length < 2 ^ 32 → l.check b.block = .ok ()) ∧
      (2 ^ 32 ≤ b.block.transactions.length → l.check b.block = .error .inconsistentPayload) := by
  obtain ⟨hhash, hcount, hle⟩ := ha.fits b (List.mem_of_getElem? hb)
  have hextends := (checkCommit_eq_ok.mp (ha.checkCommit_copy hb hpeers hdata)).2
  refine ⟨fun hlt => ?_, fun hge => check_error hopen ?_⟩
  · rw [check_eq_ok, hmax]
    exact ⟨hopen, Block.isConsistent_iff.mpr ⟨hhash, hcount, hlt⟩, hle, hextends⟩
  · rw [Bool.eq_false_iff, ne_eq, Block.isConsistent_iff]
    rintro ⟨_, _, hlt⟩
    omega

end Ledger

namespace Database

variable {d d' d'' : Store}

theorem Fails.requeued (h : Fails d d') : d.engine.Requeued d'.engine := by
  cases h with
  | kept => exact .refl _
  | emptied hengine _ _ _ => exact hengine

/-- The ledger is the same but for its queue, and the database does not stop. -/
structure Stays (d d' : Store) : Prop where
  engine : d.engine.Requeued d'.engine
  stopped : d'.stopped = d.stopped

theorem Stays.refl (d : Store) : d.Stays d := ⟨.refl _, rfl⟩

theorem Stays.trans (h : d.Stays d') (h' : d'.Stays d'') : d.Stays d'' :=
  ⟨h.engine.trans h'.engine, h'.stopped.trans h.stopped⟩

/-- An open database of the same validators whose chain is the first blocks of another one, as far as
their witnesses are left out. -/
structure Copies (d : Store) (a : Ledger) (k : Nat) : Prop where
  running : d.stopped = false
  isOpen : d.engine.closed = false
  peers_eq : d.engine.peers = a.peers
  max_eq : d.engine.maxTransactions = a.maxTransactions
  data_eq : d.engine.data = a.data.take k

theorem Copies.stay {a : Ledger} {k : Nat} (h : d.Copies a k) (hd : d.Stays d') : d'.Copies a k := by
  obtain ⟨queue, hengine⟩ := hd.engine
  refine ⟨hd.stopped.trans h.running, ?_, ?_, ?_, ?_⟩
  · rw [hengine]
    exact h.isOpen
  · rw [hengine]
    exact h.peers_eq
  · rw [hengine]
    exact h.max_eq
  · rw [hengine]
    exact h.data_eq

variable [CryptoSuite]

/-- What may be done to a database apart from storing blocks. -/
inductive Preparation where
  | submit (tx : Transaction)
  | load (b : Block)
  | build (clock : WallClock)
  | verifySignature (s : CommitSignature)

/-- A build needs a clock that can be read. -/
def Preparation.IsTimely : Preparation → Prop
  | .build clock => clock.IsReadable
  | _ => True

def prepare (d : Store) : Preparation → Store
  | .submit tx => d.mapEngine (Ledger.submit tx)
  | .load b => (d.load b).2
  | .build clock => (d.build clock).2
  | .verifySignature s => (d.verifySignature s).2

theorem prepare_stays (d : Store) {p : Preparation} (hp : p.IsTimely) : d.Stays (d.prepare p) := by
  cases p with
  | submit tx => exact ⟨⟨_, rfl⟩, rfl⟩
  | load b =>
      refine ⟨?_, d.load_stopped b⟩
      rcases hload : d.load b with ⟨r, d'⟩
      have heq : d.prepare (.load b) = d' := congrArg Prod.snd hload
      rw [heq]
      rcases load_cases hload with ⟨_, _, hfails⟩ | ⟨_, hstages⟩
      · exact hfails.requeued
      · exact hstages.engine
  | build clock =>
      obtain ⟨now, hread⟩ := WallClock.isReadable_iff.mp hp
      refine ⟨?_, d.build_stopped hread⟩
      rcases hbuild : d.build clock with ⟨r, d'⟩
      have heq : d.prepare (.build clock) = d' := congrArg Prod.snd hbuild
      rw [heq]
      rcases build_cases hbuild with ⟨_, _, hfails⟩ | ⟨_, _, hstages⟩
      · exact hfails.requeued
      · exact hstages.engine
  | verifySignature s =>
      rcases hverify : d.verifySignature s with ⟨valid, d'⟩
      have heq : d.prepare (.verifySignature s) = d' := congrArg Prod.snd hverify
      rw [heq]
      rcases verifySignature_cases hverify with ⟨_, rfl⟩ | ⟨_, _, _, _, _, rfl⟩
      · exact .refl _
      · exact ⟨.refl _, rfl⟩

theorem prepareAll_stays (d : Store) {ps : List Preparation} (hps : ∀ p ∈ ps, p.IsTimely) :
    d.Stays (ps.foldl prepare d) := by
  induction ps generalizing d with
  | nil => exact .refl d
  | cons p ps ih =>
      have hfirst := prepare_stays d (hps p List.mem_cons_self)
      exact hfirst.trans (ih (d.prepare p) fun q hq => hps q (List.mem_cons_of_mem p hq))

/-- Storing a block of others succeeds if the block passes both checks. -/
theorem add_eq_ok {b : WitnessedBlock} (hrunning : d.stopped = false) (hopen : d.engine.closed = false)
    (hcheck : d.engine.check b.block = .ok ())
    (hfit : d.engine.checkCommit b.block b.witness = .ok ()) : (d.add b).1 = .ok () := by
  have hclosed : BlockEngine.isClosed d.engine = false := hopen
  have hengine := (unstage_spec d).1
  rw [← hengine.check_eq] at hcheck
  rw [← hengine.checkCommit_eq] at hfit
  have hload : BlockEngine.load b.block d.unstage.engine = (.ok ⟨b.block, []⟩, d.unstage.engine) := by
    show d.unstage.engine.load b.block = _
    rw [Ledger.load, hcheck]
  rcases hcommit : d.unstage.engine.commit ⟨b.block, []⟩ b.witness with ⟨r, l⟩
  have hcall : BlockEngine.commit (σ := Ledger) (StagedBlock.mk b.block []) b.witness
      d.unstage.engine = (r, l) := hcommit
  simp only [add, ifOpen, hrunning, hclosed, hload, BlockEngine.settle, hcall, Bool.false_eq_true, if_false]
  rcases Ledger.commit_cases hcommit with ⟨rfl, _⟩ | ⟨e, _, he, _⟩
  · rfl
  · rw [hfit] at he
    cases he

theorem add_error {b : WitnessedBlock} {e : LedgerError} (hrunning : d.stopped = false)
    (hopen : d.engine.closed = false) (hcheck : d.engine.check b.block = .error e) :
    (d.add b).1 = .error (.loadFailed e) := by
  have hclosed : BlockEngine.isClosed d.engine = false := hopen
  rw [← (unstage_spec d).1.check_eq] at hcheck
  have hload : BlockEngine.load b.block d.unstage.engine = (.error ⟨none, e⟩, d.unstage.engine) := by
    show d.unstage.engine.load b.block = _
    rw [Ledger.load, hcheck]
  simp only [add, ifOpen, hrunning, hclosed, hload, BlockEngine.settle, Bool.false_eq_true, if_false]

variable {a : Ledger} {b : WitnessedBlock} {k : Nat}

/-- **The next block of a valid chain can be added to a copy of the blocks below it**, whatever is staged
there, and its copy is one block longer then. -/
theorem Copies.add (h : d.Copies a k) (ha : a.ValidChain) (hb : a.blocks[k]? = some b)
    (hlt : b.block.transactions.length < 2 ^ 32) :
    ∃ d', d.add b = (.ok (), d') ∧ d'.engine.blocks = d.engine.blocks ++ [b] ∧ d'.Copies a (k + 1) := by
  have hcheck := (ha.check_copy hb h.isOpen h.peers_eq h.max_eq h.data_eq).1 hlt
  have hok := add_eq_ok h.running h.isOpen hcheck (ha.checkCommit_copy hb h.peers_eq h.data_eq)
  rcases hadd : d.add b with ⟨r, d'⟩
  rw [hadd] at hok
  rcases add_cases hadd with ⟨e, he, _⟩ | ⟨rfl, hstores⟩
  · exact nomatch he.symm.trans hok
  · obtain ⟨queue, hengine⟩ := hstores.engine
    have hblocks := hstores.blocks_eq
    refine ⟨d', rfl, hblocks, hstores.stopped.trans h.running, ?_, ?_, ?_, ?_⟩
    · rw [hengine]
      exact h.isOpen
    · rw [hengine]
      exact h.peers_eq
    · rw [hengine]
      exact h.max_eq
    · have hdata : a.data[k]? = some b.block := by
        rw [Ledger.data, List.getElem?_map, hb]
        rfl
      rw [Ledger.data, hblocks, List.map_append, List.take_add_one, hdata, ← h.data_eq]
      rfl

/-- A block with more transactions than a header can count is refused there. -/
theorem Copies.refuse (h : d.Copies a k) (ha : a.ValidChain) (hb : a.blocks[k]? = some b)
    (hge : 2 ^ 32 ≤ b.block.transactions.length) :
    (d.add b).1 = .error (.loadFailed .inconsistentPayload) :=
  add_error h.running h.isOpen ((ha.check_copy hb h.isOpen h.peers_eq h.max_eq h.data_eq).2 hge)

/-- Blocks that are added one after the other, with something else done before each of them. -/
abbrev Feed := List (List Preparation × WitnessedBlock)

/-- Adds blocks until one of them is refused. -/
def replay : Feed → Store → Answer LedgerError Ledger StagedBlock SignatureCollector Unit
  | [], d => (.ok (), d)
  | (ps, b) :: rest, d =>
    match (ps.foldl prepare d).add b with
    | (.ok (), d) => replay rest d
    | (.error e, d) => (.error e, d)

/-- A chain is copied block by block from some height on. -/
theorem Copies.replay {feed : Feed} (h : d.Copies a k) (ha : a.ValidChain)
    (hfeed : feed.map Prod.snd = a.blocks.drop k)
    (htimely : ∀ f ∈ feed, ∀ p ∈ f.1, p.IsTimely)
    (hlt : ∀ b ∈ a.blocks, b.block.transactions.length < 2 ^ 32) :
    ∃ d', Database.replay feed d = (.ok (), d') ∧
      d'.engine.blocks = d.engine.blocks ++ a.blocks.drop k := by
  induction feed generalizing d k with
  | nil =>
      rw [← hfeed]
      exact ⟨d, rfl, (List.append_nil _).symm⟩
  | cons f feed ih =>
      obtain ⟨ps, b⟩ := f
      have hstays := prepareAll_stays d (htimely (ps, b) List.mem_cons_self)
      have hb : a.blocks[k]? = some b := by
        rw [← List.head?_drop, ← hfeed]
        rfl
      obtain ⟨d', hadd, hblocks, hcopies⟩ :=
        (h.stay hstays).add ha hb (hlt b (List.mem_of_getElem? hb))
      have hrest : feed.map Prod.snd = a.blocks.drop (k + 1) := by
        rw [← List.tail_drop, ← hfeed]
        rfl
      obtain ⟨d'', hreplay, hend⟩ := ih hcopies hrest fun f hf => htimely f (List.mem_cons_of_mem _ hf)
      refine ⟨d'', ?_, ?_⟩
      · rw [Database.replay, hadd]
        exact hreplay
      · rw [hend, hblocks, hstays.engine.blocks_eq, ← hrest, ← hfeed, List.append_assoc]
        rfl

end Database

namespace Ledger

variable [CryptoSuite] {key : SecretKey} {peers : List PublicKey} {maxTransactions : Nat} {l : Ledger}

open Database in
/-- **Every chain can be replayed.** To a running database with the first `k` blocks of a chain, with
whatever witnesses and whatever else staged, the block at height `k` can be added, unless it has more
transactions than a header can count. So a chain without such blocks is copied as it is by adding its blocks
in their order to an empty one, whatever is staged in between with a clock that can be read. -/
theorem chain_replayed (hstart : start key peers maxTransactions = .ok l) (actions : List LedgerAction)
    (a : Ledger) (ha : ((⟨l, []⟩ : Workbench).after actions).ledger = a) :
    (∀ (d : Store) (k : Height), d.Copies a k.number → k.number < a.blocks.length →
      ∃ b, a.blockAt? k = some b ∧
        (b.block.transactions.length < 2 ^ 32 → ∃ d', d.add b = (.ok (), d') ∧
          d'.engine.blocks = d.engine.blocks ++ [b] ∧ d'.engine.data = a.data.take (k.number + 1)) ∧
        (2 ^ 32 ≤ b.block.transactions.length →
          (d.add b).1 = .error (.loadFailed .inconsistentPayload))) ∧
    ∀ (d : Store) (feed : Feed), d.Copies a 0 → feed.map Prod.snd = a.blocks →
      (∀ f ∈ feed, ∀ p ∈ f.1, p.IsTimely) →
      (∀ b ∈ a.blocks, b.block.transactions.length < 2 ^ 32) →
      ∃ d', replay feed d = (.ok (), d') ∧ d'.engine.blocks = a.blocks := by
  have hchain : a.ValidChain := by
    rw [← ha]
    exact (Workbench.sound_after (x := ⟨l, []⟩) ⟨validChain_start hstart, nofun⟩ actions).chain
  constructor
  · intro d k hd hk
    have hb : a.blocks[k.number]? = some a.blocks[k.number] := List.getElem?_eq_getElem hk
    refine ⟨_, hb, fun hlt => ?_, hd.refuse hchain hb⟩
    obtain ⟨d', hadd, hblocks, hcopies⟩ := hd.add hchain hb hlt
    exact ⟨d', hadd, hblocks, hcopies.data_eq⟩
  · intro d feed hd hfeed htimely hlt
    obtain ⟨d', hreplay, hblocks⟩ := hd.replay hchain hfeed htimely hlt
    have hempty : d.engine.blocks = [] := List.map_eq_nil_iff.mp hd.data_eq
    rw [hempty] at hblocks
    exact ⟨d', hreplay, hblocks⟩

end Ledger

section Plain

open Database

local instance plainReplaySuite : CryptoSuite := plainSuite

/-- The first block of a chain, and the second one after its own transaction was built into a block. -/
def plainFeed : Feed :=
  [([.load (plainBlock 1)], ⟨plainBlock 2, plainWitness (plainBlock 2)⟩),
    ([.submit ⟨[9]⟩, .build ⟨5⟩], ⟨plainSecond, plainWitness plainSecond⟩)]

/-- A chain of two blocks on a ledger where the first one competed with another block is copied to another
validator's ledger, where the other block and an own one are staged meanwhile. -/
theorem chain_replayed_overtaken :
    ∃ a b d', ((⟨plainLedger (n := quartet) 0, []⟩ : Workbench).after overtakenRun).ledger.blocks =
        [a, b] ∧
      replay plainFeed (.start (plainLedger (n := quartet) 1)) = (.ok (), d') ∧
      d'.engine.blocks = [a, b] ∧ d'.engine.queue = [⟨[9]⟩] := by
  have hstart : Ledger.start (plainKey (n := quartet) 0) (plainRoster quartet).keys.toList
      Ledger.defaultMaxTransactions = .ok (plainLedger (n := quartet) 0) := rfl
  have hblocks : ((⟨plainLedger (n := quartet) 0, []⟩ : Workbench).after overtakenRun).ledger.blocks =
      [⟨plainBlock 2, plainWitness (plainBlock 2)⟩, ⟨plainSecond, plainWitness plainSecond⟩] := by
    decide +kernel
  obtain ⟨hpeers, hmax⟩ := Workbench.settings_after ⟨plainLedger (n := quartet) 0, []⟩ overtakenRun
  have hcopies : Copies (.start (plainLedger (n := quartet) 1))
      ((⟨plainLedger (n := quartet) 0, []⟩ : Workbench).after overtakenRun).ledger 0 :=
    ⟨rfl, rfl, hpeers.symm, hmax.symm, rfl⟩
  have htimely : ∀ f ∈ plainFeed, ∀ p ∈ f.1, p.IsTimely := by
    simp [plainFeed, Preparation.IsTimely, WallClock.IsReadable, WallClock.earliest, WallClock.latest]
  obtain ⟨d', hreplay, hcopy⟩ := (Ledger.chain_replayed hstart overtakenRun _ rfl).2
    (.start (plainLedger (n := quartet) 1)) plainFeed hcopies hblocks.symm htimely
    (by rw [hblocks]; decide)
  refine ⟨_, _, d', hblocks, hreplay, hcopy.trans hblocks, ?_⟩
  have hqueue : (replay plainFeed (.start (plainLedger (n := quartet) 1))).2.engine.queue =
      [⟨[9]⟩] := by decide +kernel
  rw [hreplay] at hqueue
  exact hqueue

theorem fullRun_copied (count : Nat) :
    Copies (.start (roomyLedger count 1))
      ((⟨roomyLedger count 0, []⟩ : Workbench).after (fullRun count)).ledger 0 := by
  obtain ⟨hpeers, hmax⟩ := Workbench.settings_after ⟨roomyLedger count 0, []⟩ (fullRun count)
  exact ⟨rfl, rfl, hpeers.symm, hmax.symm, rfl⟩

/-- The other validators refuse a block that was built of more transactions than its header can count. -/
theorem fullBlock_refused {count : Nat} (h : 2 ^ 32 ≤ count) :
    ((Database.start (roomyLedger count 1) : Store).add
      ⟨fullBlock count, plainWitness (fullBlock count)⟩).1 = .error (.loadFailed .inconsistentPayload) := by
  have hstart : Ledger.start (plainKey (n := quartet) 0) (plainRoster quartet).keys.toList count =
      .ok (roomyLedger count 0) := rfl
  obtain ⟨hchain, -⟩ := Workbench.sound_after (x := ⟨roomyLedger count 0, []⟩)
    ⟨Ledger.validChain_start hstart, nofun⟩ (fullRun count)
  refine (fullRun_copied count).refuse hchain ?_ (h.trans_eq List.length_replicate.symm)
  rw [fullBlock_stored]
  rfl

/-- A block of 2^32 transactions that one ledger has stored is not stored by another one of the same
validators. Nor is any block by a database that was stopped, which does not change its ledger. -/
theorem replay_refused :
    ∃ (l : Ledger) (b : WitnessedBlock) (d : Store),
      Ledger.start (plainKey (n := quartet) 0) (plainRoster quartet).keys.toList (2 ^ 32) = .ok l ∧
      ((⟨l, []⟩ : Workbench).after (fullRun (2 ^ 32))).ledger.blockAt? .zero = some b ∧
      d.Copies ((⟨l, []⟩ : Workbench).after (fullRun (2 ^ 32))).ledger 0 ∧
      (d.add b).1 = .error (.loadFailed .inconsistentPayload) ∧
      d.stop.engine = d.engine ∧ (d.stop.add b).1 = .error .stopped := by
  refine ⟨roomyLedger (2 ^ 32) 0, ⟨fullBlock (2 ^ 32), plainWitness (fullBlock (2 ^ 32))⟩,
    .start (roomyLedger (2 ^ 32) 1), rfl, ?_, fullRun_copied _, fullBlock_refused (Nat.le_refl _), rfl, rfl⟩
  rw [Ledger.blockAt?, fullBlock_stored]
  rfl

end Plain

end QuorumChain
