import QuorumChain.Proofs.Block.Commitment
import QuorumChain.Proofs.Ledger.Basic
import QuorumChain.Proofs.Plain

/-! The chain of a ledger. Blocks are checked when they are staged and when they are committed, and any
number of them may be staged at the same time; the chain is one of witnessed blocks in whatever order
staged blocks are committed and given up. -/

namespace QuorumChain

namespace Block

variable [CryptoSuite] {b : Block}

/-- A block whose header tells the hash of its transactions, and how many they are as far as a header can
tell, and that has no more of them than a block may have. -/
structure Fits (b : Block) (maxTransactions : Nat) : Prop where
  payloadHash_eq : b.header.payloadHash = payloadHash b.transactions
  payloadLength_eq : b.header.payloadLength = payloadLength b.transactions
  length_le : b.transactions.length ≤ maxTransactions

theorem fits_of_isConsistent {maxTransactions : Nat} (h : b.isConsistent = true)
    (hle : b.transactions.length ≤ maxTransactions) : b.Fits maxTransactions := by
  obtain ⟨hhash, hlength, _⟩ := isConsistent_iff.mp h
  exact ⟨hhash, hlength, hle⟩

theorem fits_build (height : Height) (parent : Option BlockId) (timestamp : Timestamp)
    {transactions : List Transaction} {maxTransactions : Nat}
    (hle : transactions.length ≤ maxTransactions) :
    (build height parent timestamp transactions).Fits maxTransactions :=
  ⟨rfl, rfl, hle⟩

end Block

namespace Ledger

variable [CryptoSuite] {l : Ledger} {b : Block} {w : Witness}

/-- The identifier of the block below a height. -/
def idBelow (l : Ledger) : Nat → Option BlockId
  | 0 => none
  | k + 1 => l.blocks[k]?.map WitnessedBlock.id

theorem bestId_eq (l : Ledger) : l.bestId = l.idBelow l.blocks.length := by
  rw [bestId, List.getLast?_eq_getElem?]
  cases hlength : l.blocks.length with
  | zero =>
      rw [List.eq_nil_of_length_eq_zero hlength]
      rfl
  | succ k => rfl

/-- What is below a stored block does not change when more blocks are stored. -/
theorem idBelow_append (l : Ledger) (b : WitnessedBlock) (queue : List Transaction) {k : Nat}
    (hk : k ≤ l.blocks.length) :
    idBelow { l with queue, blocks := l.blocks ++ [b] } k = l.idBelow k := by
  cases k with
  | zero => rfl
  | succ k =>
      show (l.blocks ++ [b])[k]?.map WitnessedBlock.id = l.blocks[k]?.map WitnessedBlock.id
      rw [List.getElem?_append_left hk]

/-- A chain of fit blocks, each on top of the one below it and with a witness of a quorum. -/
structure ValidChain (l : Ledger) : Prop where
  height_eq : ∀ (k : Nat) (b : WitnessedBlock), l.blocks[k]? = some b → b.block.height = .ofNatClamped k
  parent_eq : ∀ (k : Nat) (b : WitnessedBlock), l.blocks[k]? = some b →
    b.block.header.parent = l.idBelow k
  fits : ∀ b ∈ l.blocks, b.block.Fits l.maxTransactions
  witnessed : ∀ b ∈ l.blocks, b.witness.verify b.id l.peers l.threshold = .ok ()

/-- A block that passes the check at commit may be stored, whatever was stored since it was staged. -/
theorem ValidChain.store (h : l.ValidChain) (hfits : b.Fits l.maxTransactions)
    (hcheck : l.checkCommit b w = .ok ()) (queue : List Transaction) :
    ValidChain { l with queue, blocks := l.blocks ++ [⟨b, w⟩] } := by
  obtain ⟨hverify, hextends⟩ := checkCommit_eq_ok.mp hcheck
  obtain ⟨hheight, hparent⟩ := checkExtends_eq_ok.mp hextends
  constructor
  · intro k x hx
    rcases stored_cases hx with ⟨_, hx⟩ | ⟨rfl, rfl⟩
    · exact h.height_eq k x hx
    · exact hheight
  · intro k x hx
    rcases stored_cases hx with ⟨hk, hx⟩ | ⟨rfl, rfl⟩
    · rw [idBelow_append l _ queue (Nat.le_of_lt hk)]
      exact h.parent_eq k x hx
    · rw [idBelow_append l _ queue (Nat.le_refl _), ← bestId_eq]
      exact hparent
  · intro x hx
    rcases List.mem_append.mp hx with hx | hx
    · exact h.fits x hx
    · rw [List.mem_singleton.mp hx]
      exact hfits
  · intro x hx
    rcases List.mem_append.mp hx with hx | hx
    · exact h.witnessed x hx
    · rw [List.mem_singleton.mp hx]
      exact hverify

end Ledger

/-- A ledger with the blocks that are staged on it and neither committed nor given up yet. -/
structure Workbench where
  ledger : Ledger
  staged : List StagedBlock

/-- What may be done to a ledger. A staged block is named by its position among those that are left. -/
inductive LedgerAction where
  | submit (tx : Transaction)
  | close
  | load (b : Block)
  | build (clock : WallClock)
  | commit (position : Nat) (w : Witness)
  | rollback (position : Nat)

namespace Workbench

variable [CryptoSuite] {x x' : Workbench}

/-- Keeps what was staged, of a block that is refused as well. -/
def stage (x : Workbench) (r : Except (Refusal StagedBlock LedgerError) StagedBlock × Ledger) :
    Workbench where
  ledger := r.2
  staged := x.staged ++
    match r.1 with
    | .ok s => [s]
    | .error refusal => refusal.staged.toList

/-- A built block is staged; nothing is if there is no telling the time. -/
def build (x : Workbench) (clock : WallClock) : Workbench :=
  match x.ledger.build clock with
  | (.ok r, l) => x.stage (r, l)
  | (.error _, l) => { x with ledger := l }

def commit (x : Workbench) (position : Nat) (w : Witness) : Workbench :=
  match x.staged[position]? with
  | some s => ⟨(x.ledger.commit s w).2, x.staged.eraseIdx position⟩
  | none => x

def rollback (x : Workbench) (position : Nat) : Workbench :=
  match x.staged[position]? with
  | some s => ⟨x.ledger.rollback s, x.staged.eraseIdx position⟩
  | none => x

def act (x : Workbench) : LedgerAction → Workbench
  | .submit tx => { x with ledger := x.ledger.submit tx }
  | .close => { x with ledger := x.ledger.close }
  | .load b => x.stage (x.ledger.load b)
  | .build clock => x.build clock
  | .commit position w => x.commit position w
  | .rollback position => x.rollback position

def after (x : Workbench) (actions : List LedgerAction) : Workbench := actions.foldl act x

/-- What an action may do: give up staged blocks, stage a fit one, or store a staged one that passes the
check at commit. The queue may change in any way. -/
inductive Step (x : Workbench) : Workbench → Prop
  | kept {queue : List Transaction} {closed : Bool} {staged : List StagedBlock}
      (hstaged : staged ⊆ x.staged) : Step x ⟨{ x.ledger with queue, closed }, staged⟩
  | staged {queue : List Transaction} {s : StagedBlock}
      (hfits : s.block.Fits x.ledger.maxTransactions) :
      Step x ⟨{ x.ledger with queue }, x.staged ++ [s]⟩
  | stored {queue : List Transaction} {s : StagedBlock} {w : Witness} {staged : List StagedBlock}
      (hs : s ∈ x.staged) (hcheck : x.ledger.checkCommit s.block w = .ok ()) (hstaged : staged ⊆ x.staged) :
      Step x ⟨{ x.ledger with queue, blocks := x.ledger.blocks ++ [⟨s.block, w⟩] }, staged⟩

theorem step_stage {l : Ledger} (hl : x.ledger.Requeued l)
    {r : Except (Refusal StagedBlock LedgerError) StagedBlock}
    (h : (∃ s, r = .ok s ∧ s.block.Fits x.ledger.maxTransactions) ∨ ∃ e, r = .error ⟨none, e⟩) :
    Step x (x.stage (r, l)) := by
  obtain ⟨queue, rfl⟩ := hl
  rcases h with ⟨s, rfl, hfits⟩ | ⟨e, rfl⟩
  · exact .staged hfits
  · show Step x ⟨_, x.staged ++ []⟩
    rw [List.append_nil]
    exact .kept (List.Subset.refl _)

theorem step_load (x : Workbench) (b : Block) : Step x (x.stage (x.ledger.load b)) := by
  rcases hload : x.ledger.load b with ⟨r, l⟩
  obtain ⟨rfl, ⟨rfl, hcheck⟩ | ⟨e, rfl⟩⟩ := Ledger.load_cases hload
  · obtain ⟨_, hconsistent, hle, _⟩ := Ledger.check_eq_ok.mp hcheck
    exact step_stage (.refl _) (.inl ⟨_, rfl, Block.fits_of_isConsistent hconsistent hle⟩)
  · exact step_stage (.refl _) (.inr ⟨e, rfl⟩)

theorem step_build (x : Workbench) (clock : WallClock) : Step x (x.build clock) := by
  unfold build
  rcases hbuild : x.ledger.build clock with ⟨r, l⟩
  obtain ⟨hl, ⟨fault, rfl⟩ | ⟨e, rfl⟩ | ⟨s, rfl, _⟩⟩ := Ledger.build_cases hbuild
  · obtain ⟨queue, rfl⟩ := hl
    exact .kept (List.Subset.refl _)
  · exact step_stage hl (.inr ⟨e, rfl⟩)
  · obtain ⟨now, hblock, _⟩ := Ledger.build_eq_ok hbuild
    refine step_stage hl (.inl ⟨s, rfl, ?_⟩)
    rw [hblock]
    exact Block.fits_build _ _ now (List.length_take_le _ _)

theorem step_commit (x : Workbench) (position : Nat) (w : Witness) : Step x (x.commit position w) := by
  unfold commit
  cases hs : x.staged[position]? with
  | none => exact .kept (List.Subset.refl _)
  | some s =>
      show Step x ⟨(x.ledger.commit s w).2, x.staged.eraseIdx position⟩
      rcases hcommit : x.ledger.commit s w with ⟨r, l⟩
      obtain ⟨_, hcheck, queue, rfl⟩ | ⟨e, _, _, queue, rfl⟩ := Ledger.commit_cases hcommit
      · exact .stored (List.mem_of_getElem? hs) hcheck List.eraseIdx_subset
      · exact .kept List.eraseIdx_subset

theorem step_rollback (x : Workbench) (position : Nat) : Step x (x.rollback position) := by
  unfold rollback
  split
  · exact .kept List.eraseIdx_subset
  · exact .kept (List.Subset.refl _)

/-- **Whatever is done is one of three things.** -/
theorem step_act (x : Workbench) (a : LedgerAction) : Step x (x.act a) := by
  cases a with
  | submit tx => exact .kept (List.Subset.refl _)
  | close => exact .kept (List.Subset.refl _)
  | load b => exact step_load x b
  | build clock => exact step_build x clock
  | commit position w => exact step_commit x position w
  | rollback position => exact step_rollback x position

/-- A valid chain, with staged blocks that are fit for it. Some of them may not be on top of it. -/
structure Sound (x : Workbench) : Prop where
  chain : x.ledger.ValidChain
  staged : ∀ s ∈ x.staged, s.block.Fits x.ledger.maxTransactions

theorem Sound.step (hx : x.Sound) (h : Step x x') : x'.Sound := by
  cases h with
  | kept hstaged =>
      exact ⟨⟨hx.chain.1, hx.chain.2, hx.chain.3, hx.chain.4⟩, fun s hs => hx.staged s (hstaged hs)⟩
  | staged hfits =>
      refine ⟨⟨hx.chain.1, hx.chain.2, hx.chain.3, hx.chain.4⟩, fun s hs => ?_⟩
      rcases List.mem_append.mp hs with hs | hs
      · exact hx.staged s hs
      · rw [List.mem_singleton.mp hs]
        exact hfits
  | stored hs hcheck hstaged =>
      exact ⟨hx.chain.store (hx.staged _ hs) hcheck _, fun s hs => hx.staged s (hstaged hs)⟩

theorem Step.settings_eq (h : Step x x') :
    x'.ledger.peers = x.ledger.peers ∧ x'.ledger.maxTransactions = x.ledger.maxTransactions := by
  cases h <;> exact ⟨rfl, rfl⟩

theorem sound_after (hx : x.Sound) (actions : List LedgerAction) : (x.after actions).Sound := by
  induction actions generalizing x with
  | nil => exact hx
  | cons a rest ih => exact ih (hx.step (step_act x a))

theorem settings_after (x : Workbench) (actions : List LedgerAction) :
    (x.after actions).ledger.peers = x.ledger.peers ∧
      (x.after actions).ledger.maxTransactions = x.ledger.maxTransactions := by
  induction actions generalizing x with
  | nil => exact ⟨rfl, rfl⟩
  | cons a rest ih =>
      obtain ⟨hpeers, hmax⟩ := (step_act x a).settings_eq
      obtain ⟨hpeers', hmax'⟩ := ih (x.act a)
      exact ⟨hpeers'.trans hpeers, hmax'.trans hmax⟩

theorem after_append (x : Workbench) (actions more : List LedgerAction) :
    x.after (actions ++ more) = (x.after actions).after more := List.foldl_append

theorem after_submits (x : Workbench) (txs : List Transaction) :
    x.after (txs.map .submit) =
      { x with ledger := { x.ledger with queue := x.ledger.queue ++ txs } } := by
  induction txs generalizing x with
  | nil =>
      show x = _
      rw [List.append_nil]
  | cons tx txs ih =>
      show (x.act (.submit tx)).after (txs.map .submit) = _
      rw [ih]
      show Workbench.mk { x.ledger with queue := (x.ledger.queue ++ [tx]) ++ txs } x.staged = _
      rw [List.append_assoc]
      rfl

/-- A block of all that waits can be built and committed with what it takes of signatures, whatever its
header can tell of it. -/
theorem blocks_built {l : Ledger} {clock : WallClock} {now : Timestamp} {b : Block} {w : Witness}
    (hopen : l.closed = false) (hread : clock.read = .ok now) (hle : l.queue.length ≤ l.maxTransactions)
    (hb : Block.build l.nextHeight l.bestId now l.queue = b)
    (hw : w.verify b.id l.peers l.threshold = .ok ()) :
    ((⟨l, []⟩ : Workbench).after [.build clock, .commit 0 w]).ledger.blocks = l.blocks ++ [⟨b, w⟩] := by
  have hbuild : (⟨l, []⟩ : Workbench).build clock = ⟨{ l with queue := [] }, [⟨b, l.queue⟩]⟩ := by
    rw [build, Ledger.build, hopen, hread, List.take_of_length_le hle, List.drop_of_length_le hle, ← hb]
    rfl
  have hextends : l.checkExtends b = .ok () := by
    rw [← hb]
    exact Ledger.checkExtends_eq_ok.mpr ⟨rfl, rfl⟩
  have hcheck : ({ l with queue := [] } : Ledger).checkCommit b w = .ok () :=
    Ledger.checkCommit_eq_ok.mpr ⟨hw, hextends⟩
  show (((⟨l, []⟩ : Workbench).build clock).commit 0 w).ledger.blocks = _
  rw [hbuild]
  show (Ledger.commit ⟨b, l.queue⟩ w { l with queue := [] }).2.blocks = _
  rw [Ledger.commit, hcheck]

end Workbench

namespace Ledger

variable [CryptoSuite] {key : SecretKey} {peers : List PublicKey} {maxTransactions : Nat} {l : Ledger}

omit [CryptoSuite] in
theorem start_eq_ok (h : start key peers maxTransactions = .ok l) :
    (∃ n : ValidatorCount, n.total = peers.length) ∧ l = ⟨key, peers, maxTransactions, [], [], false⟩ := by
  unfold start ValidatorCount.ofLength ValidatorCount.ofNat? at h
  by_cases hlt : peers.length < 256
  · rw [dif_pos hlt] at h
    exact ⟨⟨⟨peers.length, hlt⟩, rfl⟩, (Except.ok.inj h).symm⟩
  · rw [dif_neg hlt] at h
    cases h

theorem validChain_start (h : start key peers maxTransactions = .ok l) : l.ValidChain := by
  obtain ⟨_, rfl⟩ := start_eq_ok h
  exact ⟨nofun, nofun, nofun, nofun⟩

/-- **A chain is always a valid chain of witnessed blocks**, whatever blocks and witnesses are offered and
in whatever order staged blocks are committed and given up. Heights and the numbers of transactions in
headers are machine words: block `k` is at height `k` as long as there is such a height, and the header
tells the hash of the transactions and how many they are, which is to be consistent with them unless
there are more than a header can count. -/
theorem chain_valid (hstart : start key peers maxTransactions = .ok l) (actions : List LedgerAction)
    (k : Nat) (b : WitnessedBlock)
    (hb : ((⟨l, []⟩ : Workbench).after actions).ledger.blocks[k]? = some b) :
    (k < 2 ^ 64 → b.block.height.number = k) ∧
    (k = 0 → b.block.header.parent = none) ∧
    (∀ j, k = j + 1 → ∃ a, ((⟨l, []⟩ : Workbench).after actions).ledger.blocks[j]? = some a ∧
      b.block.header.parent = some a.id) ∧
    b.block.header.payloadHash = payloadHash b.block.transactions ∧
    b.block.header.payloadLength = payloadLength b.block.transactions ∧
    (b.block.isConsistent = true ↔ b.block.transactions.length < 2 ^ 32) ∧
    b.block.transactions.length ≤ maxTransactions ∧
    ∃ n : ValidatorCount, n.total = peers.length ∧
      b.witness.verify b.id peers n.threshold = .ok () := by
  obtain ⟨⟨n, hn⟩, hl⟩ := start_eq_ok hstart
  obtain ⟨hchain, -⟩ := Workbench.sound_after (x := ⟨l, []⟩) ⟨validChain_start hstart, nofun⟩ actions
  obtain ⟨hpeers, hmax⟩ := Workbench.settings_after ⟨l, []⟩ actions
  have hpeers : ((⟨l, []⟩ : Workbench).after actions).ledger.peers = peers := by rw [hpeers, hl]
  have hmax : ((⟨l, []⟩ : Workbench).after actions).ledger.maxTransactions = maxTransactions := by
    rw [hmax, hl]
  generalize ((⟨l, []⟩ : Workbench).after actions).ledger = ledger at *
  have hmem := List.mem_of_getElem? hb
  obtain ⟨hhash, hlength, hle⟩ := hchain.fits b hmem
  have hparent := hchain.parent_eq k b hb
  refine ⟨fun hk => ?_, ?_, ?_, hhash, hlength, ?_, hmax ▸ hle, n, hn, ?_⟩
  · rw [hchain.height_eq k b hb]
    show min k (2 ^ 64 - 1) = k
    omega
  · rintro rfl
    exact hparent
  · rintro j rfl
    have hj : j < ledger.blocks.length := by
      have hlt := (List.getElem?_eq_some_iff.mp hb).1
      omega
    refine ⟨ledger.blocks[j], List.getElem?_eq_getElem hj, ?_⟩
    rw [hparent]
    show ledger.blocks[j]?.map WitnessedBlock.id = _
    rw [List.getElem?_eq_getElem hj]
    rfl
  · rw [Block.isConsistent_iff]
    exact ⟨fun h => h.2.2, fun h => ⟨hhash, hlength, h⟩⟩
  · have hthreshold : n.threshold = ledger.threshold := by
      rw [Ledger.threshold, hpeers, ← hn]
      rfl
    rw [hthreshold, ← hpeers]
    exact hchain.witnessed b hmem

end Ledger

section Plain

local instance plainChainSuite : CryptoSuite := plainSuite

/-- Three of four validators sign. -/
def plainWitness (b : Block) : Witness :=
  ⟨[.sign b.id (plainKey (n := quartet) 0), .sign b.id (plainKey (n := quartet) 1),
    .sign b.id (plainKey (n := quartet) 3)]⟩

/-- A block on top of the second one of height 0. -/
def plainSecond : Block := .build (.ofNatClamped 1) (some (plainBlock 2).id) (.ofNatClamped 3) [⟨[7]⟩]

/-- Two blocks of height 0 are staged. The later one is committed, after which the earlier one is refused,
and a block on top of the stored one is committed as well. -/
def overtakenRun : List LedgerAction :=
  [.load (plainBlock 1), .load (plainBlock 2), .commit 1 (plainWitness (plainBlock 2)),
    .commit 0 (plainWitness (plainBlock 1)), .load plainSecond, .commit 0 (plainWitness plainSecond)]

theorem chain_valid_overtaken :
    ∃ a b, ((⟨plainLedger (n := quartet) 0, []⟩ : Workbench).after overtakenRun).ledger.blocks = [a, b] ∧
      b.block.height.number = 1 ∧ b.block.header.parent = some a.id ∧ b.block.isConsistent = true ∧
      b.block.transactions.length ≤ Ledger.defaultMaxTransactions ∧
      ∃ n : ValidatorCount, n.total = (plainRoster quartet).keys.toList.length ∧
        b.witness.verify b.id (plainRoster quartet).keys.toList n.threshold = .ok () := by
  have hstart : Ledger.start (plainKey (n := quartet) 0) (plainRoster quartet).keys.toList
      Ledger.defaultMaxTransactions = .ok (plainLedger (n := quartet) 0) := rfl
  have hblocks : ((⟨plainLedger (n := quartet) 0, []⟩ : Workbench).after overtakenRun).ledger.blocks =
      [⟨plainBlock 2, plainWitness (plainBlock 2)⟩, ⟨plainSecond, plainWitness plainSecond⟩] := by
    decide +kernel
  obtain ⟨hheight, _, hparent, _, _, hconsistent, hlength, hwitness⟩ :=
    Ledger.chain_valid hstart overtakenRun 1 ⟨plainSecond, plainWitness plainSecond⟩ (by rw [hblocks]; rfl)
  obtain ⟨a, ha, hparent⟩ := hparent 0 rfl
  rw [hblocks] at ha
  obtain rfl : ⟨plainBlock 2, plainWitness (plainBlock 2)⟩ = a := Option.some.inj ha
  exact ⟨_, _, hblocks, hheight (by decide), hparent, hconsistent.mpr (by decide), hlength, hwitness⟩

/-- A ledger of blocks with up to a number of transactions. -/
def roomyLedger (count : Nat) (i : Fin quartet.total) : Ledger :=
  { plainLedger i with maxTransactions := count }

/-- A block of a number of transactions without content. -/
def fullBlock (count : Nat) : Block := .build .zero none (.ofNatClamped 5) (List.replicate count ⟨[]⟩)

/-- As many transactions as a block may have are submitted, built into one and committed. -/
def fullRun (count : Nat) : List LedgerAction :=
  (List.replicate count ⟨[]⟩).map .submit ++ [.build ⟨5⟩, .commit 0 (plainWitness (fullBlock count))]

theorem plainWitness_verifies (b : Block) :
    (plainWitness b).verify b.id (plainRoster quartet).keys.toList 3 = .ok () := by
  have hsigners : (plainWitness b).signatures.map (·.signer) =
      [(plainKey (n := quartet) 0).publicKey, (plainKey (n := quartet) 1).publicKey,
        (plainKey (n := quartet) 3).publicKey] := rfl
  refine Witness.verify_eq_ok.mpr ⟨Nat.le_refl 3, ?_, fun s hs => ⟨?_, ?_⟩⟩
  · rw [hsigners]
    decide +kernel
  · have hall : ∀ key ∈ [(plainKey (n := quartet) 0).publicKey, (plainKey (n := quartet) 1).publicKey,
        (plainKey (n := quartet) 3).publicKey], key ∈ (plainRoster quartet).keys.toList := by
      decide +kernel
    exact hall s.signer (hsigners ▸ List.mem_map_of_mem hs)
  · simp only [plainWitness, List.mem_cons, List.not_mem_nil, or_false] at hs
    rcases hs with rfl | rfl | rfl
    · exact plain_sign_valid _ _
    · exact plain_sign_valid _ _
    · exact plain_sign_valid _ _

theorem fullBlock_stored (count : Nat) :
    ((⟨roomyLedger count 0, []⟩ : Workbench).after (fullRun count)).ledger.blocks =
      [⟨fullBlock count, plainWitness (fullBlock count)⟩] := by
  have hread : WallClock.read ⟨5⟩ = .ok (.ofNatClamped 5) := rfl
  have hle : (List.replicate count (⟨[]⟩ : Transaction)).length ≤ count := Nat.le_of_eq List.length_replicate
  have hthreshold : (plainLedger (n := quartet) 0).threshold = 3 := by decide +kernel
  have hverifies := plainWitness_verifies (fullBlock count)
  rw [← hthreshold] at hverifies
  rw [fullRun, Workbench.after_append, Workbench.after_submits]
  exact Workbench.blocks_built rfl hread hle rfl hverifies

theorem fullBlock_isConsistent (count : Nat) : (fullBlock count).isConsistent = true ↔ count < 2 ^ 32 := by
  have hlength : (fullBlock count).transactions.length = count := List.length_replicate
  rw [Block.isConsistent_iff, hlength]
  exact ⟨fun h => h.2.2, fun h => ⟨rfl, rfl, h⟩⟩

/-- A block of 2^32 transactions is stored, and they are not as many as its header says. -/
theorem chain_uncounted :
    ∃ l b, Ledger.start (plainKey (n := quartet) 0) (plainRoster quartet).keys.toList (2 ^ 32) = .ok l ∧
      ((⟨l, []⟩ : Workbench).after (fullRun (2 ^ 32))).ledger.blocks[0]? = some b ∧
      b.block.isConsistent = false := by
  refine ⟨roomyLedger (2 ^ 32) 0, ⟨fullBlock (2 ^ 32), plainWitness (fullBlock (2 ^ 32))⟩, rfl, ?_, ?_⟩
  · rw [fullBlock_stored]
    rfl
  · rw [Bool.eq_false_iff, ne_eq, fullBlock_isConsistent]
    exact Nat.lt_irrefl _

end Plain

end QuorumChain
