import QuorumChain.Proofs.Validator.Lock

/-! Runs of one validator: its events in any order, and what others do to its ledger in between, which
is to submit transactions and to close it. -/

namespace QuorumChain

/-- Something that happens to a validator or to its ledger. -/
inductive Happening where
  | event (e : ValidatorEvent)
  | submitted (tx : Transaction)
  | closed
deriving DecidableEq

namespace Validator

open QuorumChain.Core

variable {n : ValidatorCount} [CryptoSuite]

/-- The messages that a validator sends when something happens, and the validator after it. -/
def meet (v : Node n) : Happening → List Outbound × Node n
  | .event e => v.handle e
  | .submitted tx => ([], v.mapEngine (Ledger.submit tx))
  | .closed => ([], v.mapEngine Ledger.close)

/-- The validator after a run. -/
def after (v : Node n) (run : List Happening) : Node n := run.foldl (fun v x => (v.meet x).2) v

@[simp] theorem after_nil (v : Node n) : v.after [] = v := rfl

@[simp] theorem after_cons (v : Node n) (x : Happening) (run : List Happening) :
    v.after (x :: run) = (v.meet x).2.after run := rfl

theorem after_append (v : Node n) (run run' : List Happening) :
    v.after (run ++ run') = (v.after run).after run' := List.foldl_append

/-- What every step, stopping, and a change of the ledger's queue or its closing keep is kept by every
happening. -/
theorem meet_induction {P : Core n → Prop} {v : Node n} {x : Happening}
    (hstep : ∀ {e c c'}, P c → c.running = true → Step e c c' → P c')
    (hhalt : ∀ {c : Core n}, P c → P c.halt)
    (hengine : ∀ {c : Core n} {l : Ledger}, P c → l.key = c.database.engine.key →
      l.peers = c.database.engine.peers → l.blocks = c.database.engine.blocks →
      P { c with database := { c.database with engine := l } })
    (hv : P v.core) : P (v.meet x).2.core := by
  cases x with
  | event e => exact handle_induction hstep hhalt hv
  | submitted tx => exact hengine hv rfl rfl rfl
  | closed => exact hengine hv rfl rfl rfl

/-- What every happening keeps is kept by every run. -/
theorem after_induction {P : Core n → Prop} {v : Node n} {run : List Happening} (hv : P v.core)
    (hmeet : ∀ {v : Node n} (x : Happening), P v.core → P (v.meet x).2.core) : P (v.after run).core := by
  induction run generalizing v with
  | nil => exact hv
  | cons x run ih => exact ih (hmeet x hv)

theorem coupled_engine {c : Core n} {l : Ledger} (hc : c.Coupled)
    (hkey : l.key = c.database.engine.key) (hpeers : l.peers = c.database.engine.peers)
    (hblocks : l.blocks = c.database.engine.blocks) :
    Coupled { c with database := { c.database with engine := l } } := by
  refine hc.withDatabase (hc.sound.mapEngine hkey hpeers hblocks) hblocks (fun s hs => .inl hs)
    hc.busy fun hrunning => ?_
  exact (hc.admits hrunning).transfer hblocks rfl rfl rfl

theorem coupled_meet {v : Node n} (x : Happening) (hv : v.core.Coupled) :
    (v.meet x).2.core.Coupled :=
  meet_induction (P := Coupled) (fun hc hrunning hs => hc.step hrunning hs) (fun hc => hc.halt)
    coupled_engine hv

theorem coupled_after {v : Node n} (hv : v.core.Coupled) (run : List Happening) :
    (v.after run).core.Coupled :=
  after_induction hv coupled_meet

variable {v : Node n} {h : Height} {r : BlockId}

theorem locked_engine {c : Core n} {l : Ledger} (hl : c.Locked h r)
    (hblocks : l.blocks = c.database.engine.blocks) :
    Locked { c with database := { c.database with engine := l } } h r := by
  rcases hl with hown | ⟨b, hb, hid⟩
  · exact .inl hown
  · exact .inr ⟨b, by rw [blocks, hblocks]; exact hb, hid⟩

/-- **What a validator is bound to at one moment of a run it is bound to at every later one.** -/
theorem locked_after (hv : v.core.Coupled) (run : List Happening) (hl : v.core.Locked h r) :
    (v.after run).core.Locked h r :=
  (after_induction (P := fun c => c.Coupled ∧ c.Locked h r) ⟨hv, hl⟩ fun _ hx =>
    meet_induction (P := fun c => c.Coupled ∧ c.Locked h r)
      (fun hc hrunning hs => ⟨hc.1.step hrunning hs, hc.1.locked_step hrunning hs hc.2⟩)
      (fun hc => ⟨hc.1.halt, locked_halt hc.2⟩)
      (fun hc hkey hpeers hblocks =>
        ⟨coupled_engine hc.1 hkey hpeers hblocks, locked_engine hc.2 hblocks⟩) hx).2

end Validator

end QuorumChain
