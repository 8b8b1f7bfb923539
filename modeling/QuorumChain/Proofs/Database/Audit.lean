import QuorumChain.Database
import QuorumChain.Proofs.Ledger.Staging

/-! An engine that keeps an account of the staged blocks that it hands out. A database cannot tell it
from the engine itself, so the account is one of what a database does with the staged blocks of any
engine. -/

namespace QuorumChain

/-- What uses up a staged block. -/
inductive Disposal where
  | commit
  | rollback
deriving DecidableEq

/-- A staged block or a collector, with the number of the staged block that it belongs to. -/
structure Numbered (α : Type) where
  number : Nat
  value : α

/-- An engine whose staged blocks are numbered in the order in which they are handed out. -/
structure AuditedEngine (σ : Type) where
  engine : σ
  /-- how often a block was to be loaded or built -/
  calls : Nat
  /-- how many staged blocks were handed out -/
  issued : Nat
  /-- which of them were used up, and how, in the order of the calls -/
  disposed : List (Nat × Disposal)

namespace AuditedEngine

variable {σ β ω ε : Type} [BlockEngine σ β ω ε]

def ofEngine (engine : σ) : AuditedEngine σ := ⟨engine, 0, 0, []⟩

def map (f : σ → σ) (s : AuditedEngine σ) : AuditedEngine σ := { s with engine := f s.engine }

/-- Numbers what an engine hands out, if it hands out anything. A staged block may come with a refusal. -/
def handOut (s : AuditedEngine σ) (engine : σ) :
    Except (Refusal β ε) β → Except (Refusal (Numbered β) ε) (Numbered β) × AuditedEngine σ
  | .ok b => (.ok ⟨s.issued, b⟩, { s with engine, calls := s.calls + 1, issued := s.issued + 1 })
  | .error ⟨some b, cause⟩ =>
    (.error ⟨some ⟨s.issued, b⟩, cause⟩, { s with engine, calls := s.calls + 1, issued := s.issued + 1 })
  | .error ⟨none, cause⟩ => (.error ⟨none, cause⟩, { s with engine, calls := s.calls + 1 })

def load (b : Block) (s : AuditedEngine σ) :
    Except (Refusal (Numbered β) ε) (Numbered β) × AuditedEngine σ :=
  let (r, engine) := BlockEngine.load b s.engine
  s.handOut engine r

def build (clock : WallClock) (s : AuditedEngine σ) :
    Except Fault (Except (Refusal (Numbered β) ε) (Numbered β)) × AuditedEngine σ :=
  match BlockEngine.build clock s.engine with
  | (.error fault, engine) => (.error fault, { s with engine, calls := s.calls + 1 })
  | (.ok r, engine) =>
    let (r, s) := s.handOut engine r
    (.ok r, s)

/-- Notes that a staged block is used up. -/
def dispose (number : Nat) (how : Disposal) (s : AuditedEngine σ) : AuditedEngine σ :=
  { s with disposed := s.disposed ++ [(number, how)] }

instance : BlockEngine (AuditedEngine σ) (Numbered β) (Numbered ω) ε where
  isClosed s := BlockEngine.isClosed s.engine
  bestHeight s := BlockEngine.bestHeight s.engine
  blockAt? s := BlockEngine.blockAt? s.engine
  signatureOver? s := BlockEngine.signatureOver? s.engine
  queueSize s := BlockEngine.queueSize s.engine
  load := load
  build := build
  block b := BlockEngine.block σ b.value
  collector s b := ⟨b.number, BlockEngine.collector s.engine b.value⟩
  commit b w s :=
    let (r, engine) := BlockEngine.commit b.value w s.engine
    (r, { s with engine }.dispose b.number .commit)
  rollback b s := (s.map (BlockEngine.rollback b.value)).dispose b.number .rollback
  ownSignature c := BlockEngine.ownSignature σ c.value
  applySignature s c :=
    let (r, value) := BlockEngine.applySignature σ s c.value
    (r, { c with value })
  isComplete c := BlockEngine.isComplete σ c.value
  witness c := BlockEngine.witness σ c.value
  causeChain := BlockEngine.causeChain σ

end AuditedEngine

/-- Something done with a database, or to its engine from outside. -/
inductive DatabaseAction (σ : Type) where
  | load (b : Block)
  | build (clock : WallClock)
  | commit (signatures : List CommitSignature)
  | add (b : WitnessedBlock)
  | verifySignature (s : CommitSignature)
  | stop
  | outside (change : σ → σ)

/-- The answer to an action. -/
inductive DatabaseReply (ε : Type) where
  | signed (r : Except (DatabaseError ε) CommitSignature)
  | built (r : Except (DatabaseError ε) (Block × CommitSignature))
  | done (r : Except (DatabaseError ε) Unit)
  | verified (valid : Bool)
  | silent

/-- The same action with an audited engine. -/
def DatabaseAction.audited {σ : Type} : DatabaseAction σ → DatabaseAction (AuditedEngine σ)
  | load b => load b
  | build clock => build clock
  | commit signatures => commit signatures
  | add b => add b
  | verifySignature s => verifySignature s
  | stop => stop
  | outside change => outside (AuditedEngine.map change)

namespace Database

variable {σ β ω ε : Type} [BlockEngine σ β ω ε]

def respond (d : Database σ β ω) : DatabaseAction σ → DatabaseReply ε × Database σ β ω
  | .load b => (d.load b).map .signed id
  | .build clock => (d.build clock).map .built id
  | .commit signatures => (d.commit signatures).map .done id
  | .add b => (d.add b).map .done id
  | .verifySignature s => (d.verifySignature s).map .verified id
  | .stop => (.silent, d.stop)
  | .outside change => (.silent, d.mapEngine change)

/-- The answers to actions in a row, and the database after them. -/
def respondAll (d : Database σ β ω) :
    List (DatabaseAction σ) → List (DatabaseReply ε) × Database σ β ω
  | [] => ([], d)
  | a :: rest =>
    let (reply, d) := d.respond a
    let (replies, d) := d.respondAll rest
    (reply :: replies, d)

/-- A database on an audited engine. -/
abbrev Audited (σ β ω : Type) := Database (AuditedEngine σ) (Numbered β) (Numbered ω)

/-- The database without the account of its engine. -/
def bare (d : Audited σ β ω) : Database σ β ω :=
  ⟨d.engine.engine, d.staged.map (·.value), d.collector.map (·.value), d.stopped⟩

variable {d : Audited σ β ω} {α : Type}

theorem bare_unstage (d : Audited σ β ω) : d.unstage.bare = d.bare.unstage := by
  rcases d with ⟨engine, _ | b, collector, stopped⟩
  · rfl
  · rfl

/-- The second result is the first one without the account. -/
def Matches (x : Answer ε (AuditedEngine σ) (Numbered β) (Numbered ω) α) (y : Answer ε σ β ω α) : Prop :=
  y = (x.1, x.2.bare)

theorem matches_ifOpen {op : Answer ε (AuditedEngine σ) (Numbered β) (Numbered ω) α}
    {op' : Answer ε σ β ω α} (h : Matches op op') : Matches (d.ifOpen op) (d.bare.ifOpen op') := by
  unfold Matches ifOpen
  have hstopped : d.bare.stopped = d.stopped := rfl
  have hclosed : BlockEngine.isClosed d.bare.engine = BlockEngine.isClosed d.engine := rfl
  rw [hstopped, hclosed]
  split
  · rfl
  · split
    · rfl
    · exact h

theorem matches_load (d : Audited σ β ω) (b : Block) : Matches (d.load b) (d.bare.load b) := by
  refine matches_ifOpen ?_
  rw [← bare_unstage]
  generalize d.unstage = u
  have hload : BlockEngine.load b u.engine = u.engine.load b := rfl
  have hengine : u.bare.engine = u.engine.engine := rfl
  simp only [hload, hengine, AuditedEngine.load]
  rcases BlockEngine.load b u.engine.engine with ⟨⟨_ | s, cause⟩ | s, engine⟩
  · rfl
  · rfl
  · rfl

theorem matches_build (d : Audited σ β ω) (clock : WallClock) :
    Matches (d.build clock) (d.bare.build clock) := by
  refine matches_ifOpen ?_
  rw [← bare_unstage]
  generalize d.unstage = u
  have hbuild : BlockEngine.build clock u.engine = u.engine.build clock := rfl
  have hengine : u.bare.engine = u.engine.engine := rfl
  simp only [hbuild, hengine, AuditedEngine.build]
  rcases BlockEngine.build clock u.engine.engine with ⟨fault | ⟨⟨_ | s, cause⟩ | s⟩, engine⟩
  · rfl
  · rfl
  · rfl
  · rfl

theorem matches_add (d : Audited σ β ω) (b : WitnessedBlock) : Matches (d.add b) (d.bare.add b) := by
  refine matches_ifOpen ?_
  rw [← bare_unstage]
  generalize d.unstage = u
  have hload : BlockEngine.load b.block u.engine = u.engine.load b.block := rfl
  have hengine : u.bare.engine = u.engine.engine := rfl
  simp only [hload, hengine, AuditedEngine.load]
  rcases BlockEngine.load b.block u.engine.engine with ⟨⟨_ | s, cause⟩ | s, engine⟩
  · rfl
  · rfl
  · rfl

theorem applyAll_value (c : Numbered ω) (signatures : List CommitSignature) :
    applyAll (σ := AuditedEngine σ) c signatures = ⟨c.number, applyAll (σ := σ) c.value signatures⟩ := by
  induction signatures generalizing c with
  | nil => rfl
  | cons s rest ih => exact ih _

theorem matches_commit (d : Audited σ β ω) (signatures : List CommitSignature) :
    Matches (d.commit signatures) (d.bare.commit signatures) := by
  refine matches_ifOpen ?_
  rcases d with ⟨engine, _ | b, collector, stopped⟩
  · rfl
  · rcases collector with _ | c
    · rfl
    · have hwitness : BlockEngine.witness (AuditedEngine σ) (applyAll (σ := AuditedEngine σ) c signatures) =
          BlockEngine.witness σ (applyAll (σ := σ) c.value signatures) := by
        rw [applyAll_value]
        rfl
      simp only [bare, Option.map_some, hwitness]
      cases BlockEngine.witness σ (applyAll (σ := σ) c.value signatures) with
      | error e => rfl
      | ok w => rfl

theorem matches_verifySignature (d : Audited σ β ω) (s : CommitSignature) :
    d.bare.verifySignature s = ((d.verifySignature s).1, (d.verifySignature s).2.bare) := by
  rcases d with ⟨engine, staged, _ | c, stopped⟩
  · rfl
  · rfl

theorem bare_stop (d : Audited σ β ω) : d.stop.bare = d.bare.stop := by
  unfold stop
  have hstopped : d.bare.stopped = d.stopped := rfl
  rw [hstopped, ← bare_unstage]
  split
  · rfl
  · rfl

/-- **An audited database answers as the one without an account**, and goes on like it. -/
theorem respond_audited (d : Audited σ β ω) (a : DatabaseAction σ) :
    d.bare.respond a = ((d.respond a.audited).1, (d.respond a.audited).2.bare) := by
  cases a with
  | load b => exact congrArg (Prod.map DatabaseReply.signed id) (matches_load d b)
  | build clock => exact congrArg (Prod.map DatabaseReply.built id) (matches_build d clock)
  | commit signatures => exact congrArg (Prod.map DatabaseReply.done id) (matches_commit d signatures)
  | add b => exact congrArg (Prod.map DatabaseReply.done id) (matches_add d b)
  | verifySignature s => exact congrArg (Prod.map DatabaseReply.verified id) (matches_verifySignature d s)
  | stop => exact congrArg (Prod.mk DatabaseReply.silent) (bare_stop d).symm
  | outside change => rfl

theorem respondAll_audited (d : Audited σ β ω) (actions : List (DatabaseAction σ)) :
    d.bare.respondAll actions =
      ((d.respondAll (actions.map .audited)).1, (d.respondAll (actions.map .audited)).2.bare) := by
  induction actions generalizing d with
  | nil => rfl
  | cons a rest ih =>
      simp only [respondAll, List.map_cons, respond_audited, ih]

end Database

end QuorumChain
