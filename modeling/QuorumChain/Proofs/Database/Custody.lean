import QuorumChain.Engine.Failing
import QuorumChain.Proofs.Database.Audit
import QuorumChain.Proofs.Plain

/-! Staged blocks are used up once. Whatever an engine hands out, and whatever of it fails, a database
commits or rolls back each staged block with one call, before it stages another one or stops; and the
collector that it keeps is that of the block that it has staged. -/

namespace QuorumChain

namespace AuditedEngine

variable {σ β ω ε : Type} {s s' : AuditedEngine σ} {k : Nat}

/-- Each staged block that was handed out is used up once, but those that are held are not used up. -/
def Owes (s : AuditedEngine σ) (held : List Nat) : Prop :=
  (s.disposed.map Prod.fst ++ held).Perm (List.range s.issued)

theorem Owes.map (h : s.Owes [k]) (f : σ → σ) : (s.map f).Owes [k] := h

theorem Owes.dispose (h : s.Owes [k]) (how : Disposal) : (s.dispose k how).Owes [] := by
  unfold Owes AuditedEngine.dispose
  rw [List.map_append, List.append_nil]
  exact h

/-- One more is handed out. -/
theorem Owes.issue (h : s.Owes []) (engine : σ) (calls : Nat) :
    Owes { s with engine, calls, issued := s.issued + 1 } [s.issued] := by
  unfold Owes at h ⊢
  rw [List.append_nil] at h
  rw [List.range_succ]
  exact h.append_right _

variable [BlockEngine σ β ω ε]

/-- What comes with a refusal is rolled back at once. -/
theorem Owes.settle (h : s.Owes []) {engine : σ} {r : Except (Refusal β ε) β}
    {q : Except ε (Numbered β)} (hq : BlockEngine.settle (s.handOut engine r) = (q, s')) :
    (∃ e, q = .error e ∧ s'.Owes []) ∨ ∃ b, q = .ok b ∧ s'.Owes [b.number] := by
  rcases r with ⟨_ | b, cause⟩ | b
  · cases hq
    exact .inl ⟨cause, rfl, h⟩
  · cases hq
    exact .inl ⟨cause, rfl, ((h.issue engine (s.calls + 1)).map _).dispose .rollback⟩
  · cases hq
    exact .inr ⟨⟨s.issued, b⟩, rfl, h.issue engine (s.calls + 1)⟩

theorem Owes.load (h : s.Owes []) {b : Block} {q : Except ε (Numbered β)}
    (hq : BlockEngine.settle (BlockEngine.load b s) = (q, s')) :
    (∃ e, q = .error e ∧ s'.Owes []) ∨ ∃ b, q = .ok b ∧ s'.Owes [b.number] := by
  rcases hload : BlockEngine.load b s.engine with ⟨r, engine⟩
  have hcall : BlockEngine.load b s = s.handOut engine r := by
    show s.load b = _
    rw [AuditedEngine.load, hload]
  exact h.settle (hcall ▸ hq)

theorem Owes.build (h : s.Owes []) {clock : WallClock} {engine : AuditedEngine σ}
    {r : Except (Refusal (Numbered β) ε) (Numbered β)} {q : Except ε (Numbered β)}
    (hbuild : BlockEngine.build clock s = (.ok r, engine)) (hq : BlockEngine.settle (r, engine) = (q, s')) :
    (∃ e, q = .error e ∧ s'.Owes []) ∨ ∃ b, q = .ok b ∧ s'.Owes [b.number] := by
  have hcall : s.build clock = (.ok r, engine) := hbuild
  unfold AuditedEngine.build at hcall
  split at hcall
  · cases hcall
  · cases hcall
    exact h.settle hq

/-- A build that breaks off hands out nothing. -/
theorem Owes.breakOff (h : s.Owes []) {clock : WallClock} {engine : AuditedEngine σ} {fault : Fault}
    (hbuild : BlockEngine.build clock s = (.error fault, engine)) : engine.Owes [] := by
  have hcall : s.build clock = (.error fault, engine) := hbuild
  unfold AuditedEngine.build at hcall
  split at hcall
  · cases hcall
    exact h
  · cases hcall

/-- A staged block is used up by a commit, also by one that fails. -/
theorem Owes.commit {b : Numbered β} (h : s.Owes [b.number]) (w : Witness) :
    (BlockEngine.commit b w s).2.Owes [] := Owes.dispose h .commit

end AuditedEngine

/-- Says that the database is stopped, as far as there is anything to say. -/
def DatabaseReply.IsStopped {ε : Type} : DatabaseReply ε → Prop
  | signed r => r = .error .stopped
  | built r => r = .error .stopped
  | done r => r = .error .stopped
  | verified valid => valid = false
  | silent => True

namespace Database

variable {σ β ω ε : Type} {d d' : Audited σ β ω}

/-- The staged block is the only one that is not used up, and the collector is its own. -/
structure Accounted (d : Audited σ β ω) : Prop where
  owes : d.engine.Owes (d.staged.map (·.number)).toList
  paired : d.collector.map (·.number) = d.staged.map (·.number)
  stopped : d.stopped = true → d.staged = none

namespace Accounted

theorem start (engine : σ) : Accounted (.start (.ofEngine engine) : Audited σ β ω) where
  owes := .refl _
  paired := rfl
  stopped _ := rfl

theorem empty (howes : d.engine.Owes []) (hstaged : d.staged = none) (hcollector : d.collector = none) :
    d.Accounted where
  owes := by
    rw [hstaged]
    exact howes
  paired := by rw [hstaged, hcollector]; rfl
  stopped _ := hstaged

theorem collector_eq_none (hd : d.Accounted) (hstaged : d.staged = none) : d.collector = none := by
  have hpaired := hd.paired
  rw [hstaged] at hpaired
  exact Option.map_eq_none_iff.mp hpaired

theorem mapEngine (hd : d.Accounted) (f : σ → σ) : Accounted (d.mapEngine (AuditedEngine.map f)) :=
  ⟨hd.owes, hd.paired, hd.stopped⟩

variable [BlockEngine σ β ω ε]

theorem unstage (hd : d.Accounted) :
    d.unstage.engine.Owes [] ∧ d.unstage.staged = none ∧ d.unstage.collector = none := by
  have howes := hd.owes
  unfold Database.unstage
  split
  next b hb =>
    rw [hb] at howes
    exact ⟨(howes.map _).dispose .rollback, rfl, rfl⟩
  next hnone =>
    rw [hnone] at howes
    exact ⟨howes, hnone, rfl⟩

theorem unstaged (hd : d.Accounted) : d.unstage.Accounted := by
  obtain ⟨howes, hstaged, hcollector⟩ := hd.unstage
  exact .empty howes hstaged hcollector

theorem unstage_stopped (d : Audited σ β ω) : d.unstage.stopped = d.stopped := by
  unfold Database.unstage
  split
  · rfl
  · rfl

/-- What the engine hands out last is staged, or there is nothing to stage. -/
theorem restage {d : Audited σ β ω} {engine : AuditedEngine σ} {q : Except ε (Numbered β)}
    (hrunning : d.stopped = false) (hstaged : d.staged = none) (hcollector : d.collector = none)
    (hq : (∃ e, q = .error e ∧ engine.Owes []) ∨ ∃ b, q = .ok b ∧ engine.Owes [b.number]) :
    (∃ e, q = .error e ∧ Accounted { d with engine }) ∨
      ∃ b, q = .ok b ∧ (Database.stage b { d with engine }).2.Accounted := by
  rcases hq with ⟨e, rfl, howes⟩ | ⟨b, rfl, howes⟩
  · exact .inl ⟨e, rfl, .empty howes hstaged hcollector⟩
  · exact .inr ⟨b, rfl, howes, rfl, fun h => nomatch hrunning.symm.trans h⟩

theorem load (hd : d.Accounted) (b : Block) : (d.load b).2.Accounted := by
  rcases h : d.load b with ⟨r, d'⟩
  rcases ifOpen_cases h with ⟨rfl, _⟩ | ⟨hrunning, _, hop⟩
  · exact hd
  obtain ⟨howes, hstaged, hcollector⟩ := hd.unstage
  rcases hq : BlockEngine.settle (BlockEngine.load b d.unstage.engine) with ⟨q, engine⟩
  simp only [hq] at hop
  rcases restage ((unstage_stopped d).trans hrunning) hstaged hcollector (howes.load hq) with
    ⟨e, rfl, hd'⟩ | ⟨b, rfl, hd'⟩
  · cases hop
    exact hd'
  · cases hop
    exact hd'

theorem build (hd : d.Accounted) (clock : WallClock) : (d.build clock).2.Accounted := by
  rcases h : d.build clock with ⟨r, d'⟩
  rcases ifOpen_cases h with ⟨rfl, _⟩ | ⟨hrunning, _, hop⟩
  · exact hd
  obtain ⟨howes, hstaged, hcollector⟩ := hd.unstage
  rcases hbuild : BlockEngine.build clock d.unstage.engine with ⟨fault | r, engine⟩
  · simp only [hbuild] at hop
    cases hop
    exact .empty (howes.breakOff hbuild) hstaged hcollector
  · rcases hq : BlockEngine.settle (r, engine) with ⟨q, engine⟩
    simp only [hbuild, hq] at hop
    rcases restage ((unstage_stopped d).trans hrunning) hstaged hcollector (howes.build hbuild hq) with
      ⟨e, rfl, hd'⟩ | ⟨b, rfl, hd'⟩
    · cases hop
      exact hd'
    · cases hop
      exact hd'

theorem add (hd : d.Accounted) (b : WitnessedBlock) : (d.add b).2.Accounted := by
  rcases h : d.add b with ⟨r, d'⟩
  rcases ifOpen_cases h with ⟨rfl, _⟩ | ⟨_, _, hop⟩
  · exact hd
  obtain ⟨howes, hstaged, hcollector⟩ := hd.unstage
  rcases hq : BlockEngine.settle (BlockEngine.load b.block d.unstage.engine) with ⟨q, engine⟩
  simp only [hq] at hop
  rcases howes.load hq with ⟨e, rfl, howes⟩ | ⟨b, rfl, howes⟩
  · cases hop
    exact .empty howes hstaged hcollector
  · cases hop
    exact .empty (howes.commit _) hstaged hcollector

/-- The collector is there if a block is staged, so that there is no third case. -/
theorem commit (hd : d.Accounted) (signatures : List CommitSignature) :
    (d.commit signatures).2.Accounted := by
  rcases h : d.commit signatures with ⟨r, d'⟩
  rcases ifOpen_cases h with ⟨rfl, _⟩ | ⟨_, _, hop⟩
  · exact hd
  have howes := hd.owes
  split at hop
  next hnone =>
    cases hop
    exact hd
  next hs hc =>
    have hpaired := hd.paired
    rw [hs, hc] at hpaired
    cases hpaired
  next b c hs hc =>
    rw [hs] at howes
    split at hop
    · cases hop
      exact hd.unstaged
    · cases hop
      exact .empty (howes.commit _) rfl rfl

theorem verifySignature (hd : d.Accounted) (t : CommitSignature) :
    (d.verifySignature t).2.Accounted := by
  unfold Database.verifySignature
  split
  · exact hd
  next c hc =>
    refine ⟨hd.owes, ?_, hd.stopped⟩
    rw [← hd.paired, hc]
    rfl

theorem stop (hd : d.Accounted) : d.stop.Accounted := by
  unfold Database.stop
  split
  · exact hd
  · obtain ⟨howes, hstaged, hcollector⟩ := hd.unstage
    exact .empty howes hstaged hcollector

/-- An action keeps the account. -/
theorem respond (hd : d.Accounted) (a : DatabaseAction σ) : (d.respond a.audited).2.Accounted := by
  cases a with
  | load b => exact hd.load b
  | build clock => exact hd.build clock
  | commit signatures => exact hd.commit signatures
  | add b => exact hd.add b
  | verifySignature t => exact hd.verifySignature t
  | stop => exact hd.stop
  | outside change => exact hd.mapEngine change

theorem respondAll (hd : d.Accounted) (actions : List (DatabaseAction σ)) :
    (d.respondAll (actions.map .audited)).2.Accounted := by
  induction actions generalizing d with
  | nil => exact hd
  | cons a rest ih => exact ih (hd.respond a)

end Accounted

/-! A database that is stopped does nothing more. -/

variable [BlockEngine σ β ω ε]

theorem ifOpen_of_stopped {α : Type} {d : Database σ β ω} (h : d.stopped = true)
    (op : Answer ε σ β ω α) : d.ifOpen op = (.error .stopped, d) := by
  rw [ifOpen, if_pos h]

/-- A stopped database with nothing staged refuses whatever it is asked for, and does not change. -/
theorem respond_of_stopped {d : Database σ β ω} (hstopped : d.stopped = true)
    (hcollector : d.collector = none) (a : DatabaseAction σ) (ha : ∀ change, a ≠ .outside change) :
    (d.respond a).1.IsStopped ∧ (d.respond a).2 = d := by
  cases a with
  | load b =>
    rw [respond, load, ifOpen_of_stopped hstopped]
    exact ⟨rfl, rfl⟩
  | build clock =>
    rw [respond, build, ifOpen_of_stopped hstopped]
    exact ⟨rfl, rfl⟩
  | commit signatures =>
    rw [respond, commit, ifOpen_of_stopped hstopped]
    exact ⟨rfl, rfl⟩
  | add b =>
    rw [respond, add, ifOpen_of_stopped hstopped]
    exact ⟨rfl, rfl⟩
  | verifySignature s =>
    rw [respond, verifySignature, hcollector]
    exact ⟨rfl, rfl⟩
  | stop =>
    rw [respond, stop, if_pos hstopped]
    exact ⟨trivial, rfl⟩
  | outside change => exact absurd rfl (ha change)

theorem respond_stopped {d : Database σ β ω} (hstopped : d.stopped = true) (hcollector : d.collector = none)
    (a : DatabaseAction σ) : (d.respond a).2.stopped = true := by
  by_cases ha : ∃ change, a = .outside change
  · obtain ⟨change, rfl⟩ := ha
    exact hstopped
  · rw [(respond_of_stopped hstopped hcollector a (not_exists.mp ha)).2]
    exact hstopped

theorem stop_stopped (d : Database σ β ω) : d.stop.stopped = true := by
  unfold stop
  split
  next h => exact h
  · rfl

namespace Accounted

theorem respondAll_stopped (hd : d.Accounted) (h : d.stopped = true) (actions : List (DatabaseAction σ)) :
    (d.respondAll (actions.map .audited)).2.stopped = true := by
  induction actions generalizing d with
  | nil => exact h
  | cons a rest ih =>
    exact ih (hd.respond a) (respond_stopped h (hd.collector_eq_none (hd.stopped h)) a.audited)

/-- A database that was told to stop is stopped from then on. -/
theorem stopped_of_mem (hd : d.Accounted) {actions : List (DatabaseAction σ)} (h : .stop ∈ actions) :
    (d.respondAll (actions.map .audited)).2.stopped = true := by
  induction actions generalizing d with
  | nil => cases h
  | cons a rest ih =>
    cases h with
    | head => exact hd.stop.respondAll_stopped (stop_stopped d) rest
    | tail _ h => exact ih (hd.respond a) h

end Accounted

/-- **A staged block is used up by one call**, a commit or a rollback, unless it is the one that is
still staged. The collector is there as long as a block is staged, and it is that of this block. A
database that is stopped has nothing staged, and refuses whatever is asked of it without a call of its
engine. All this shows in the account of an audited engine, with which a database answers and goes on
as without. -/
theorem staged_used_up_once (engine : σ) (actions : List (DatabaseAction σ)) :
    ∃ d : Audited σ β ω,
      (start (.ofEngine engine)).respondAll (actions.map .audited) =
          (((start engine).respondAll actions).1, d) ∧
        d.bare = ((start engine).respondAll actions).2 ∧
        d.engine.Owes (d.staged.map (·.number)).toList ∧
        d.collector.map (·.number) = d.staged.map (·.number) ∧
        (.stop ∈ actions → d.stopped = true) ∧
        (d.stopped = true → d.engine.Owes [] ∧ d.staged = none ∧ d.collector = none ∧
          ∀ a, (∀ change, a ≠ .outside change) → (d.respond a).1.IsStopped ∧ (d.respond a).2 = d) := by
  have hstart : Accounted (start (.ofEngine engine) : Audited σ β ω) := .start engine
  have hruns : (start engine).respondAll actions = _ :=
    respondAll_audited (start (.ofEngine engine) : Audited σ β ω) actions
  have hd := hstart.respondAll actions
  have hstops : .stop ∈ actions → _ := hstart.stopped_of_mem
  generalize respondAll (start (.ofEngine engine)) (actions.map .audited) = run at hruns hd hstops ⊢
  obtain ⟨replies, d⟩ := run
  refine ⟨d, by rw [hruns], by rw [hruns], hd.owes, hd.paired, hstops, fun hstopped => ?_⟩
  have hstaged := hd.stopped hstopped
  have howes := hd.owes
  rw [hstaged] at howes
  exact ⟨howes, hstaged, hd.collector_eq_none hstaged,
    respond_of_stopped hstopped (hd.collector_eq_none hstaged)⟩

section Plain

local instance plainCustodySuite : CryptoSuite := plainSuite

/-- The first block gives way to the second one, which the engine refuses once it is built; the third
one is committed, and nothing is left when the database stops. -/
example :
    let ledger : FailingEngine Ledger := .ofEngine (plainLedger (n := ⟨1, by decide⟩) 0)
    let refuse (on : Bool) : DatabaseAction (FailingEngine Ledger) :=
      .outside fun s => { s with failBuild := on }
    let actions := [.build ⟨1⟩, refuse true, .build ⟨2⟩, refuse false, .build ⟨3⟩, .commit [], .stop, .build ⟨4⟩]
    let d := (respondAll (start (.ofEngine ledger)) (actions.map .audited)).2
    d.engine.disposed = [(0, .rollback), (1, .rollback), (2, .commit)] ∧ d.engine.calls = 3 := by
  decide +kernel

end Plain

end Database

end QuorumChain
