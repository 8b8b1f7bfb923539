import QuorumChain.Proofs.Plain
import QuorumChain.Proofs.Validator.Decision
import QuorumChain.Proofs.View.Waiting

/-! The own height of a validator follows its chain. The chain is one block ahead at most, and only while
the result of storing that block is under way, which the view takes in as it should. So a validator never
has to jump over blocks. -/

namespace QuorumChain

namespace View

variable {n : ValidatorCount} {v w : View n}

/-- The event is accepted, unless the own height or the own serial is the last one there is. -/
def Accepts (v : View n) (e : ViewEvent) : Prop :=
  (∃ w, v.handle e = .ok (.accepted, w)) ∨ v.own.height.next = none ∨ v.own.serial.next = none

theorem accepts_of_advance {e : ViewEvent} (h : v.handle e = do return (.accepted, ← v.advance)) :
    v.Accepts e := by
  rw [Accepts, h]
  refine v.advance_total.imp_left ?_
  rintro ⟨w, hw⟩
  exact ⟨w, by rw [hw]; rfl⟩

theorem accepts_advanced {height : Height} (h : v.own.height.next = some height) :
    v.Accepts (.advanced height) :=
  accepts_of_advance (if_pos h)

theorem accepts_committed {id : BlockId} (h : v.own.block = some id) : v.Accepts (.committed id) :=
  accepts_of_advance (if_pos h)

end View

/-- The result of a task that has stored a block. -/
inductive Completion.Stored {ε : Type} : Completion ε → Prop
  | added {height : Height} : Stored (.added height (.ok ()))
  | committed {b : Block} : Stored (.committed b (.ok ()))

namespace Core

variable {n : ValidatorCount} [CryptoSuite] {c c' : Core n} {e : ValidatorEvent}

/-- The chain is ahead exactly while the result of storing a block is there to be taken. -/
theorem Coupled.ahead_iff (hc : c.Coupled) (hrunning : c.running = true) :
    c.Ahead ↔ ∃ result, c.work = some (.done result) ∧ result.Stored := by
  have hadmits := hc.admits hrunning
  have hnot : c.OnLevel → ¬ c.Ahead := fun hlevel hahead => by
    rw [OnLevel] at hlevel
    rw [Ahead] at hahead
    omega
  constructor
  · intro hahead
    rcases hwork : c.work with _ | work
    · rw [hwork] at hadmits
      exact absurd hahead (hnot hadmits)
    rw [hwork] at hadmits
    cases work with
    | issued task => exact absurd hahead (hnot hadmits.issued)
    | done result =>
        refine ⟨result, rfl, ?_⟩
        cases result with
        | loaded b r =>
            cases r with
            | ok own => exact absurd hahead (hnot hadmits.1)
            | error e => exact absurd hahead (hnot hadmits)
        | built r =>
            cases r with
            | ok own => exact absurd hahead (hnot hadmits.1)
            | error e => exact absurd hahead (hnot hadmits)
        | added height r =>
            cases r with
            | ok u => exact .added
            | error e => exact absurd hahead (hnot hadmits)
        | committed b r =>
            cases r with
            | ok u => exact .committed
            | error e => exact absurd hahead (hnot hadmits)
  · rintro ⟨result, hwork, hstored⟩
    rw [hwork] at hadmits
    cases hstored with
    | added => exact hadmits.1
    | committed => exact hadmits.1

/-- What is true of a validator in every state, also once it is stopped. -/
structure Tracks (c : Core n) : Prop where
  coupled : c.Coupled
  idle : c.processing = false → c.OnLevel
  stopped : c.running = false → c.work = none

namespace Tracks

theorem ofRunning (hc : c.Coupled) (hrunning : c.running = true) : c.Tracks :=
  ⟨hc, fun hidle => (hc.idle hrunning hidle).2, fun hstopped => nomatch hrunning.symm.trans hstopped⟩

theorem halt (hc : c.Tracks) : c.halt.Tracks where
  coupled := hc.coupled.halt
  idle hidle := (congrArg List.length (halt_blocks c)).trans (hc.idle hidle)
  stopped _ := rfl

theorem engine (hc : c.Tracks) {l : Ledger} (hkey : l.key = c.database.engine.key)
    (hpeers : l.peers = c.database.engine.peers) (hblocks : l.blocks = c.database.engine.blocks) :
    Tracks { c with database := { c.database with engine := l } } where
  coupled := Validator.coupled_engine hc.coupled hkey hpeers hblocks
  idle hidle := (congrArg List.length hblocks).trans (hc.idle hidle)
  stopped := hc.stopped

/-- There is a running validator if there is a result to be taken. -/
theorem running (hc : c.Tracks) {work : Work LedgerError} (hwork : c.work = some work) :
    c.running = true := by
  cases hrunning : c.running with
  | true => rfl
  | false => exact nomatch hwork.symm.trans (hc.stopped hrunning)

end Tracks

end Core

namespace Validator

open QuorumChain.Core

variable {n : ValidatorCount} [CryptoSuite] {u v v' : Node n} {e : ValidatorEvent}

theorem tracks_meet (x : Happening) (hv : v.core.Tracks) : (v.meet x).2.core.Tracks :=
  meet_induction (P := Tracks)
    (fun hc hrunning hs => .ofRunning (hc.coupled.step hrunning hs) (hs.running_eq.trans hrunning))
    Tracks.halt (fun hc hkey hpeers hblocks => hc.engine hkey hpeers hblocks) hv

theorem tracks_after (hv : v.core.Tracks) (run : List Happening) : (v.after run).core.Tracks :=
  after_induction hv tracks_meet

/-- A validator that stops was running until then, or until the work that was issued was done. -/
theorem handle_stops (hv : v.core.Coupled) (hrunning : v.running = true)
    (hstops : (v.handle e).2.running = false) :
    ∃ u, (u = v ∨ ∃ clock, u = v.runWork clock) ∧ u.running = true ∧ (v.handle e).2 = u.halt := by
  unfold handle at hstops ⊢
  rw [if_pos hrunning] at hstops ⊢
  cases hreact : v.react e with
  | error fault => exact ⟨v, .inl rfl, hrunning, rfl⟩
  | ok next =>
      rw [hreact] at hstops
      obtain ⟨c, hpath, hc | ⟨⟨clock, rfl⟩, _⟩⟩ := react_path hreact
      · have hstill : next.2.core.running = true := hc ▸ (hv.path hrunning hpath).2
        exact nomatch hstops.symm.trans hstill
      · cases hreact
        have hwork := runWork_path (e := .shutdown clock) (.inr rfl) v
        exact ⟨v.runWork clock, .inr ⟨clock, rfl⟩, (hv.path hrunning hwork).2, rfl⟩

/-- If the chain is ahead of a validator that stops, the result of storing a block was there until then. -/
theorem ahead_stops (hv : v.core.Coupled) (hrunning : v.running = true)
    (hstops : (v.handle e).2.running = false) (hahead : (v.handle e).2.core.Ahead) :
    ∃ u, (u = v ∨ ∃ clock, u = v.runWork clock) ∧ u.running = true ∧
      u.own = (v.handle e).2.own ∧ u.core.blocks = (v.handle e).2.core.blocks ∧
      ∃ result, u.work = some (.done result) ∧ result.Stored := by
  obtain ⟨u, hu, hrun, hhalt⟩ := handle_stops hv hrunning hstops
  rw [hhalt] at hahead ⊢
  have hu' : u.core.Coupled := by
    rcases hu with rfl | ⟨clock, rfl⟩
    · exact hv
    · exact (hv.path hrunning (runWork_path (.inl rfl) _)).1
  have hblocks := halt_blocks u.core
  have hahead' : u.core.Ahead := (congrArg List.length hblocks).symm.trans hahead
  exact ⟨u, hu, hrun, rfl, hblocks.symm, (hu'.ahead_iff hrun).mp hahead'⟩

/-- A stopped validator stays as it is, but for the queue of its ledger. -/
theorem meet_stopped (x : Happening) (hstopped : v.running = false) :
    (v.meet x).2.running = false ∧ (v.meet x).2.own = v.own ∧
      (v.meet x).2.core.blocks = v.core.blocks := by
  cases x with
  | event e =>
      have hsame : (v.meet (.event e)).2 = v := congrArg Prod.snd (handle_stopped e hstopped)
      rw [hsame]
      exact ⟨hstopped, rfl, rfl⟩
  | submitted tx => exact ⟨hstopped, rfl, rfl⟩
  | closed => exact ⟨hstopped, rfl, rfl⟩

/-- If the chain is ahead, the result of storing a block is there, or was when the validator stopped. -/
theorem ahead_after (hv : v.core.Coupled) (hrunning : v.running = true) (run : List Happening)
    (hahead : (v.after run).core.Ahead) :
    ∃ part u, part <+: run ∧ (u = v.after part ∨ ∃ clock, u = (v.after part).runWork clock) ∧
      u.running = true ∧ ((v.after run).running = true → u = v.after run) ∧
      u.own = (v.after run).own ∧ u.core.blocks = (v.after run).core.blocks ∧
      ∃ result, u.work = some (.done result) ∧ result.Stored := by
  induction run using List.reverseRecOn with
  | nil => exact ⟨[], v, List.prefix_rfl, .inl rfl, hrunning, fun _ => rfl, rfl, rfl,
      (hv.ahead_iff hrunning).mp hahead⟩
  | append_singleton run x ih =>
      have hcoupled := coupled_after hv run
      have hnext : v.after (run ++ [x]) = ((v.after run).meet x).2 := after_append v run [x]
      cases hnow : (v.after (run ++ [x])).running with
      | true =>
          exact ⟨_, _, List.prefix_rfl, .inl rfl, hnow, fun _ => rfl, rfl, rfl,
            ((coupled_after hv _).ahead_iff hnow).mp hahead⟩
      | false =>
          rw [hnext] at hahead hnow ⊢
          cases hbefore : (v.after run).running with
          | true =>
              obtain ⟨e, rfl⟩ : ∃ e, x = .event e := by
                cases x with
                | event e => exact ⟨e, rfl⟩
                | submitted tx => exact nomatch hnow.symm.trans hbefore
                | closed => exact nomatch hnow.symm.trans hbefore
              obtain ⟨u, hu, hrun, hown, hblocks, hresult⟩ := ahead_stops hcoupled hbefore hnow hahead
              exact ⟨run, u, List.prefix_append _ _, hu, hrun, nofun, hown, hblocks, hresult⟩
          | false =>
              obtain ⟨_, hown, hblocks⟩ := meet_stopped x hbefore
              have hahead' : (v.after run).core.Ahead := by
                show (v.after run).core.blocks.length = (v.after run).own.height.number + 1
                rw [← hblocks, ← hown]
                exact hahead
              obtain ⟨part, u, hpart, hu, hrun, _, hown', hblocks', hresult⟩ := ih hahead'
              exact ⟨part, u, hpart.trans (List.prefix_append _ _), hu, hrun, nofun,
                hown'.trans hown.symm, hblocks'.trans hblocks.symm, hresult⟩

section Start

variable {config : Config} {roster : Roster} {me : PeerIndex} {l : Ledger} {policy : BuildPolicy}
  {clock : WallClock} {now : Instant} {v w : Node roster.size}

/-- **The own height follows the chain.** With nothing under way it is the number of stored blocks. The
chain is ahead by one block at most, and only while the result of storing a block is to be taken, or if it
was when the validator stopped. The view accepts such a result, so that a tick has nothing to jump over. -/
theorem height_tracks_chain (hl : l.Ordered)
    (hstart : Validator.start config roster me l policy clock now = .ok (.ok v))
    (run : List Happening) (hw : w = v.after run) :
    (w.executor.processing = false → w.core.blocks.length = w.own.height.number) ∧
    (w.core.blocks.length = w.own.height.number ∨
      w.core.blocks.length = w.own.height.number + 1) ∧
    (w.core.blocks.length = w.own.height.number + 1 →
      ∃ part u, part <+: run ∧ (u = v.after part ∨ ∃ clock, u = (v.after part).runWork clock) ∧
        u.running = true ∧ (w.running = true → u = w) ∧ u.own = w.own ∧
        u.core.blocks = w.core.blocks ∧ ∃ result, u.work = some (.done result) ∧ result.Stored) ∧
    (∀ height next, w.work = some (.done (.added height (.ok ()))) →
      height.next = some next → w.executor.view.Accepts (.advanced next)) ∧
    (∀ b, w.work = some (.done (.committed b (.ok ()))) →
      w.executor.view.Accepts (.committed b.id)) ∧
    w.fastForward = .ok w := by
  obtain ⟨_, _, _, _, _, hcore⟩ := start_core hl hstart
  have hrunning : v.running = true := congrArg Core.running hcore
  have hv := coupled_start hl hstart
  have htracks : w.core.Tracks := hw ▸ tracks_after (.ofRunning hv hrunning) run
  refine ⟨htracks.idle, htracks.coupled.level, fun hahead => ?_, fun height next hwork hnext => ?_,
    fun b hwork => ?_, ?_⟩
  · subst hw
    exact ahead_after hv hrunning run hahead
  · have hadmits := htracks.coupled.admits (htracks.running hwork)
    rw [show w.core.work = _ from hwork] at hadmits
    obtain ⟨_, _, rfl⟩ := hadmits
    exact View.accepts_advanced hnext
  · have hadmits := htracks.coupled.admits (htracks.running hwork)
    rw [show w.core.work = _ from hwork] at hadmits
    exact View.accepts_committed hadmits.2.2
  · exact fastForward_eq htracks.coupled htracks.idle

end Start

end Validator

section Plain

local instance plainLevelSuite : CryptoSuite := plainSuite

/-- Validator 3 has stored the first block, and has not heard of that yet. -/
def firstStored : List Happening := firstIssued ++ [.event (.workDone ⟨0⟩)]

/-- Is the result of a commit to be taken? -/
def Validator.hasCommitted {n : ValidatorCount} (v : Node n) : Bool :=
  match v.work with
  | some (.done (.committed _ (.ok ()))) => true
  | _ => false

theorem height_tracks_chain_quartet :
    ∃ v w, plainStart (n := quartet) 3 = .ok (.ok v) ∧ w = v.after firstStored ∧
      w.core.blocks.length = 1 ∧ w.own.height.number = 0 ∧ w.executor.processing = true ∧
      (∃ b u, w.work = some (.done (.committed b (.ok ()))) ∧
        w.executor.view.handle (.committed b.id) = .ok (.accepted, u)) ∧
      w.fastForward = .ok w := by
  obtain ⟨v, hstart, hlength, hheight, hbusy, hlast, hcommitted⟩ :=
    exists_started (x := plainStart (n := quartet) 3)
      (P := fun v => (v.after firstStored).core.blocks.length = 1 ∧
        (v.after firstStored).own.height.number = 0 ∧
        (v.after firstStored).executor.processing = true ∧
        ((v.after firstStored).own.height.next.isSome ∧ (v.after firstStored).own.serial.next.isSome) ∧
        (v.after firstStored).hasCommitted = true)
      (by decide +kernel)
  obtain ⟨b, hwork⟩ : ∃ b, (v.after firstStored).work = some (.done (.committed b (.ok ()))) := by
    unfold Validator.hasCommitted at hcommitted
    split at hcommitted
    next b hwork => exact ⟨b, hwork⟩
    · cases hcommitted
  obtain ⟨_, _, _, _, haccepts, hforward⟩ :=
    Validator.height_tracks_chain (fun _ _ h => by cases h) hstart firstStored rfl
  rcases haccepts b hwork with ⟨u, hu⟩ | hnone | hnone
  · exact ⟨v, _, hstart, rfl, hlength, hheight, hbusy, ⟨b, u, hwork, hu⟩, hforward⟩
  · exact nomatch hnone ▸ hlast.1
  · exact nomatch hnone ▸ hlast.2

end Plain

end QuorumChain
