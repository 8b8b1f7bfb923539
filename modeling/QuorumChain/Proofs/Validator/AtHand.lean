import QuorumChain.Proofs.Validator.Decision
import QuorumChain.Proofs.Validator.Outbox

/-! The block at hand, which a validator answers with when it is asked for its proposal. It is set with
the block of the own status and given up when the height ends; a validator that gives its block up in
a revolt, or to catch up with the others, still has it at hand. -/

namespace QuorumChain

namespace Core

variable {n : ValidatorCount} [CryptoSuite] {c c' : Core n} {e : ValidatorEvent}

/-- The block at hand is one of the own height. -/
def AtOwnHeight (c : Core n) : Prop := ∀ b, c.current = some b → b.height = c.view.own.height

omit [CryptoSuite] in
theorem AtOwnHeight.withView (h : c.AtOwnHeight) {view : View n} (hp : c.view.own.Persists view.own) :
    AtOwnHeight { c with view } :=
  fun b hb => (h b hb).trans hp.1.symm

/-- A block that was loaded or built is one of the own height, also if it is not wanted any more. -/
theorem AtOwnHeight.takeSigned (h : c.AtOwnHeight) {b : Block} {own : CommitSignature} {ve : ViewEvent}
    {outcome : Outcome} {view : View n} (hheight : b.height = c.view.own.height)
    (hve : ve = .received b.id own ∨ ve = .built b.id own)
    (hview : c.view.handle ve = .ok (outcome, view)) :
    AtOwnHeight { c with
      view
      current := if outcome = .accepted then some b else c.current
      processing := false
      work := none } := by
  rcases View.handle_signed hve hview with ⟨hrefused, _, hown, _⟩ | ⟨rfl, serial, hrec⟩
  · rw [if_neg hrefused]
    exact fun b' hb' => (h b' hb').trans (by rw [hown])
  · rw [if_pos rfl]
    intro b' hb'
    cases hb'
    exact hheight.trans (View.recompute_holding hrec).2.1.symm

theorem AtOwnHeight.take (h : c.AtOwnHeight) (hc : c.Coupled) (hrunning : c.running = true)
    {result : Completion LedgerError} {view : View n} {current : Option Block}
    (hwork : c.work = some (.done result)) (ht : Takes c.view c.current result view current) :
    AtOwnHeight { c with view, current, processing := false, work := none } := by
  have hadmits := hc.admits hrunning
  rw [hwork] at hadmits
  cases ht with
  | failed _ => exact h
  | loaded hview => exact h.takeSigned hadmits.2.2.1 (.inl rfl) hview
  | built hview => exact h.takeSigned hadmits.2.2.1 (.inr rfl) hview
  | added hnext hview =>
      obtain ⟨_, _, rfl⟩ := hadmits
      obtain ⟨rfl, _⟩ := View.handle_advanced (Counter.next_eq_some.mpr hnext) hview
      exact nofun
  | committed _ => exact nofun

/-- Every step keeps the block at hand at the own height. -/
theorem AtOwnHeight.step (h : c.AtOwnHeight) (hc : c.Coupled) (hrunning : c.running = true)
    (hs : Step e c c') : c'.AtOwnHeight := by
  cases hs with
  | view hve hview => exact h.withView (View.handle_quiet hve.isQuiet hview).2
  | jump hidle hbest hge _ => exact absurd hge (hc.not_below_best (hc.idle hrunning hidle).2 hbest)
  | hear _ _ _ _ _ hview =>
      exact h.withView (View.handle_quiet (e := .signature _ _ _) trivial hview).2
  | issue _ _ => exact h
  | run _ _ _ => exact h
  | take _ hwork htakes => exact h.take hc hrunning hwork htakes

/-- A validator that has a block and nothing under way has that block at hand and staged. -/
theorem Fit.at_hand (hc : c.Fit) (hrunning : c.running = true) (hidle : c.processing = false)
    {r : BlockId} (hr : c.view.own.block = some r) :
    ∃ s, c.current = some s.block ∧ s.block.id = r ∧ c.database.staged = some s := by
  have hnone := (hc.coupled.idle hrunning hidle).1
  have hstoring : ¬ c.Storing := fun ⟨b, hb⟩ => nomatch hnone.symm.trans hb
  obtain ⟨s, _, hs, _⟩ := (hc.armed hrunning).collects hstoring (by rw [hr]; exact nofun)
  exact ⟨s, hc.coupled.matching r s hr hs, (hc.coupled.staged_fits hr hs).1, hs⟩

end Core

namespace Validator

open QuorumChain.Core

theorem atOwnHeight_after {n : ValidatorCount} [CryptoSuite] {v : Node n} (hv : v.core.Coupled)
    (h : v.core.AtOwnHeight) (run : List Happening) : (v.after run).core.AtOwnHeight :=
  (after_induction (P := fun c => c.Coupled ∧ c.AtOwnHeight) ⟨hv, h⟩ fun _ hx =>
    meet_induction (P := fun c => c.Coupled ∧ c.AtOwnHeight)
      (fun hc hrunning hs => ⟨hc.1.step hrunning hs, hc.2.step hc.1 hrunning hs⟩)
      (fun hc => ⟨hc.1.halt, hc.2⟩)
      (fun hc hkey hpeers hblocks => ⟨coupled_engine hc.1 hkey hpeers hblocks, hc.2⟩) hx).2

/-- **The block at hand is that of the own status, staged in the database, exactly if the own status
has a block.** With nothing under way it is always one of the own height, and a proposal that is sent
then is the block at hand. -/
theorem at_hand_held_iff {config : Config} {roster : Roster} {me : PeerIndex} {l : Ledger}
    {policy : BuildPolicy} {clock : WallClock} {now : Instant} [CryptoSuite] {v : Node roster.size}
    (hl : l.Ordered) (hdistinct : roster.keys.toList.Nodup) (hpeers : l.peers = roster.keys.toList)
    (hkey : ∀ i, roster.size.memberAt? me = some i → l.key.publicKey = roster.keys[i])
    (hsigns : ∀ id, (CommitSignature.sign id l.key).isValid id = true)
    (hstart : Validator.start config roster me l policy clock now = .ok (.ok v))
    (run : List Happening) (hrunning : (v.after run).running = true)
    (hidle : (v.after run).executor.processing = false) :
    (∀ b, (v.after run).executor.current = some b →
      b.height = (v.after run).own.height ∧
        (((v.after run).own.block = some b.id ∧
            ∃ s, (v.after run).executor.database.staged = some s ∧ s.block = b) ↔
          (v.after run).own.block ≠ none)) ∧
      ∀ e i b, .one i (.unfinishedBlock b) ∈ ((v.after run).handle e).1 →
        (v.after run).executor.current = some b := by
  have hstarted := fit_start hl hdistinct hpeers hkey hsigns hstart
  have hv := fit_after hstarted run
  have hheight : (v.after run).core.AtOwnHeight := by
    refine atOwnHeight_after hstarted.coupled ?_ run
    obtain ⟨_, _, _, _, _, hcore⟩ := start_core hl hstart
    rw [hcore]
    exact nofun
  refine ⟨fun b hb => ⟨hheight b hb, ?_, ?_⟩, fun e i b hsent => (handle_out_proposal hsent).2.2⟩
  · rintro ⟨hblock, _⟩ hnone
    exact nomatch hblock.symm.trans hnone
  · intro hblock
    obtain ⟨r, hr⟩ := Option.ne_none_iff_exists'.mp hblock
    obtain ⟨s, hcurrent, rfl, hs⟩ := hv.at_hand hrunning hidle hr
    cases Option.some.inj (hcurrent.symm.trans hb)
    exact ⟨hr, s, hs, rfl⟩

end Validator

section Plain

local instance plainAtHandSuite : CryptoSuite := plainSuite

/-- Validator 3 gives the block of validator 0 up in a revolt with two others. -/
def firstDropped : List Happening :=
  firstHeld ++
    [.event .revolt, heard 1 (.status ⟨.zero, .ofNatClamped 1, .waitBlock, none, false, .ofNatClamped 1⟩),
      heard 2 (.status ⟨.zero, .zero, .waitBlock, none, true, .ofNatClamped 1⟩)]

/-- Validator 2 asks for a block. -/
def proposalAsked (b : Block) : ValidatorEvent := .message (quartet.indexOf 2) (.getUnfinishedBlock b.id)

/-- Validator 3 holds the block of validator 0, and sends it to who asks for it. -/
theorem at_hand_held_iff_quartet :
    ∃ v b, plainStart (n := quartet) 3 = .ok (.ok v) ∧
      .one (quartet.indexOf 2) (.unfinishedBlock b) ∈ ((v.after firstHeld).handle (proposalAsked b)).1 ∧
      (v.after firstHeld).own.block = some b.id ∧
      ∃ s, (v.after firstHeld).executor.database.staged = some s ∧ s.block = b := by
  obtain ⟨v, hstart, hrunning, hidle, hblock, hsent⟩ := exists_started (x := plainStart (n := quartet) 3)
    (P := fun v => (v.after firstHeld).running = true ∧ (v.after firstHeld).executor.processing = false ∧
      (v.after firstHeld).own.block ≠ none ∧
      .one (quartet.indexOf 2) (.unfinishedBlock (plainBlock 1)) ∈
        ((v.after firstHeld).handle (proposalAsked (plainBlock 1))).1) (by decide +kernel)
  obtain ⟨hcurrent, hproposal⟩ := Validator.at_hand_held_iff (fun _ _ h => by cases h) (by decide +kernel)
    rfl (fun i hi => by revert i; decide +kernel) (fun id => plain_sign_valid id _) hstart firstHeld
    hrunning hidle
  obtain ⟨hown, hstaged⟩ := (hcurrent _ (hproposal _ _ _ hsent)).2.mpr hblock
  exact ⟨v, _, hstart, hsent, hown, hstaged⟩

/-- Validator 3 has given the block up, but has it at hand and sends it to who asks for it. -/
theorem at_hand_dropped :
    ∃ v, plainStart (n := quartet) 3 = .ok (.ok v) ∧ (v.after firstDropped).running = true ∧
      (v.after firstDropped).executor.processing = false ∧
      (v.after firstDropped).executor.current = some (plainBlock 1) ∧
      (v.after firstDropped).own.block = none ∧
      .one (quartet.indexOf 2) (.unfinishedBlock (plainBlock 1)) ∈
        ((v.after firstDropped).handle (proposalAsked (plainBlock 1))).1 :=
  exists_started (by decide +kernel)

end Plain

end QuorumChain
