import QuorumChain.Proofs.Plain
import QuorumChain.Proofs.Validator.Outbox

/-! Commit signatures that a validator hands out. A signature is there as soon as the validator has the
block, and it is handed out then; but until the block is prepared the validator may give it up, and may
sign another block of that height. -/

namespace QuorumChain

/-- Is it the signature over a block that is sent? -/
def Outbound.IsSignatureOver (id : BlockId) : Outbound → Prop
  | .one _ (.blockSignature id' _) => id' = id
  | _ => False

instance (id : BlockId) (o : Outbound) : Decidable (o.IsSignatureOver id) := by
  unfold Outbound.IsSignatureOver
  split <;> infer_instance

namespace Core

variable {n : ValidatorCount} [CryptoSuite] {c c' : Core n} {e : ValidatorEvent}
  {h : Height} {r : BlockId}

/-- The validator has no block at a height, and is not about to get one. -/
def Lacks (c : Core n) (e : ValidatorEvent) (h : Height) : Prop :=
  c.view.own.height = h ∧ c.view.own.phase = .waitBlock ∧
    (e = .resultTaken → ∀ result, c.work = some (.done result) → result.IsFailure)

theorem Coupled.has_height (hc : c.Coupled) {b : Block} (hb : c.Has b) :
    c.Locked b.height b.id ∨
      (c.view.own.height = b.height ∧ c.view.own.block = some b.id ∧ c.view.own.phase = .haveBlock) := by
  rcases hb with ⟨hblock, hcurrent⟩ | ⟨w, hw, rfl⟩
  · have hheight := (hc.current_fits hblock hcurrent).2
    cases hphase : c.view.own.phase with
    | waitBlock => exact absurd hphase (hc.coherent.not_waiting hblock)
    | haveBlock => exact .inr ⟨hheight.symm, hblock, rfl⟩
    | prepared => exact .inl (.inl ⟨hheight.symm, hphase, hblock⟩)
  · exact .inl (.inr ⟨w, hc.stored_at hw, rfl⟩)

/-- Only the block of the own status, if that is prepared, can be stored at the own height. -/
theorem Coupled.locked_own (hc : c.Coupled) (hl : c.Locked c.view.own.height r)
    (hphase : c.view.own.phase ≠ .waitBlock) :
    c.view.own.phase = .prepared ∧ c.view.own.block = some r := by
  rcases hl with ⟨_, hp, hblock⟩ | ⟨b, hb, rfl⟩
  · exact ⟨hp, hblock⟩
  · exact (hc.agrees b hb).resolve_left hphase

/-- Whatever a validator has at the height of a block that it keeps is that block. -/
theorem Coupled.keeps_unique (hc : c.Coupled) (hk : c.Keeps h r) {b : Block} (hb : c.Has b)
    (hheight : b.height = h) : b.id = r := by
  subst hheight
  rcases hc.has_height hb with hl | ⟨hheight, hblock, hphase⟩
  · rcases hk with hl' | ⟨hheight, hblock⟩
    · exact hc.locked_unique hl hl'
    · rw [← hheight] at hl
      exact Option.some.inj ((hc.locked_own hl (hc.coherent.not_waiting hblock)).2.symm.trans hblock)
  · rcases hk with hl | ⟨_, hblock'⟩
    · rw [← hheight] at hl
      have hprepared := (hc.locked_own hl (by simp [hphase])).1
      exact nomatch hprepared.symm.trans hphase
    · exact Option.some.inj (hblock.symm.trans hblock')

/-- Work whose result is taken now was not done at the same event. -/
theorem Step.done_before (hs : Step e c c') (he : e = .resultTaken) {result : Completion LedgerError}
    (hwork : c'.work = some (.done result)) : c.work = some (.done result) := by
  cases hs with
  | view _ _ => exact hwork
  | jump _ _ _ _ => exact hwork
  | hear _ _ _ _ _ _ => exact hwork
  | issue _ _ => cases hwork
  | run hrun _ _ =>
      subst he
      rcases hrun with hrun | hrun <;> cases hrun
  | take _ _ _ => cases hwork

/-- A validator that has a block does not wait for the result of getting another one. -/
theorem Coupled.done_failure (hc : c.Coupled) (hrunning : c.running = true)
    (hphase : c.view.own.phase = .haveBlock) {result : Completion LedgerError}
    (hwork : c.work = some (.done result)) : result.IsFailure := by
  have hadmits := hc.admits hrunning
  rw [hwork] at hadmits
  cases result with
  | loaded b r =>
      cases r with
      | ok own => exact nomatch hphase.symm.trans hadmits.2.1
      | error e => exact ⟨e, rfl⟩
  | built r =>
      cases r with
      | ok made => exact nomatch hphase.symm.trans hadmits.2.1
      | error e => exact ⟨e, rfl⟩
  | added height r =>
      cases r with
      | ok u => exact nomatch hphase.symm.trans hadmits.2.1
      | error e => exact ⟨e, rfl⟩
  | committed b r =>
      cases r with
      | ok u => exact nomatch hphase.symm.trans hadmits.2.1
      | error e => exact ⟨e, rfl⟩

theorem Coupled.keeps_step (hc : c.Coupled) (hrunning : c.running = true) (hs : Step e c c')
    (hk : c.Keeps h r ∨ c.Lacks e h) : c'.Keeps h r ∨ c'.Lacks e h := by
  rcases hk with (hl | ⟨rfl, hblock⟩) | ⟨rfl, hwait, hfailed⟩
  · exact .inl (.inl (hc.locked_step hrunning hs hl))
  · rcases hc.own_step hrunning hs with
      ⟨hheight, ⟨hnot, hwait, _⟩ | ⟨hsame, _⟩⟩ | ⟨_, _, ⟨hwait, _⟩ | ⟨hahead, _⟩⟩
    · refine .inr ⟨hheight, hwait, fun he result hwork => ?_⟩
      have hphase : c.view.own.phase = .haveBlock := by
        cases hphase : c.view.own.phase with
        | waitBlock => exact absurd hphase (hc.coherent.not_waiting hblock)
        | haveBlock => rfl
        | prepared => exact absurd hphase hnot
      exact hc.done_failure hrunning hphase (hs.done_before he hwork)
    · exact .inl (.inr ⟨hheight, hsame.trans hblock⟩)
    · exact absurd hwait (hc.coherent.not_waiting hblock)
    · obtain ⟨b, hb, hid⟩ := hc.stored_own hahead rfl hblock
      exact .inl (.inl (.inr ⟨b, hs.stored hb, hid⟩))
  · rcases hc.own_step hrunning hs with hp | ⟨he, ⟨result, hwork, hok⟩, _⟩
    · exact .inr ⟨hp.1, hp.waiting hwait, fun he result hwork => hfailed he result (hs.done_before he hwork)⟩
    · exact absurd (hfailed he result hwork) hok

theorem keeps_halt (hk : c.Keeps h r) : c.halt.Keeps h r :=
  hk.imp_left locked_halt

end Core

namespace Validator

open QuorumChain.Core

variable {n : ValidatorCount} [CryptoSuite] {v : Node n} {h : Height} {r : BlockId}

/-- After an event a validator still has a block, or it waits for another one. -/
theorem keeps_handle (hv : v.core.Coupled) (e : ValidatorEvent) (hk : v.core.Keeps h r) :
    (v.handle e).2.core.Keeps h r ∨
      ((v.handle e).2.own.height = h ∧ (v.handle e).2.own.phase = .waitBlock) := by
  have hend := handle_induction (e := e)
    (P := fun c => c.Coupled ∧ (c.Keeps h r ∨ c.Lacks e h))
    (fun hc hrunning hs => ⟨hc.1.step hrunning hs, hc.1.keeps_step hrunning hs hc.2⟩)
    (fun hc => ⟨hc.1.halt, hc.2.imp keeps_halt fun ⟨hheight, hwait, _⟩ => ⟨hheight, hwait, nofun⟩⟩)
    ⟨hv, .inl hk⟩
  exact hend.2.imp_right fun ⟨hheight, hwait, _⟩ => ⟨hheight, hwait⟩

theorem keeps_meet (hv : v.core.Coupled) (x : Happening) (hk : v.core.Keeps h r) :
    (v.meet x).2.core.Keeps h r ∨
      ((v.meet x).2.own.height = h ∧ (v.meet x).2.own.phase = .waitBlock) := by
  cases x with
  | event e => exact keeps_handle hv e hk
  | submitted tx => exact .inl hk
  | closed => exact .inl hk

/-- A block is kept over a run unless the validator waits for another one of that height meanwhile. -/
theorem keeps_after {run : List Happening} (hv : v.core.Coupled) (hk : v.core.Keeps h r)
    (hheld : ∀ part, part <+: run → (v.after part).own.height = h →
      (v.after part).own.phase ≠ .waitBlock) :
    (v.after run).core.Keeps h r := by
  induction run generalizing v with
  | nil => exact hk
  | cons x run ih =>
      rcases keeps_meet hv x hk with hk | ⟨hheight, hwait⟩
      · refine ih (coupled_meet x hv) hk fun part hpart => ?_
        exact hheld (x :: part) (List.cons_prefix_cons.mpr ⟨rfl, hpart⟩)
      · exact absurd hwait (hheld [x] (List.cons_prefix_cons.mpr ⟨rfl, List.nil_prefix⟩) hheight)

/-- A validator hands out its signature over a block that it has. -/
def Releases (v : Node n) (e : ValidatorEvent) (b : Block) : Prop :=
  v.core.Has b ∧ ∃ o ∈ (v.handle e).1, o.IsSignatureOver b.id

instance (v : Node n) (e : ValidatorEvent) (b : Block) : Decidable (v.Releases e b) :=
  inferInstanceAs (Decidable (_ ∧ ∃ o ∈ (v.handle e).1, _))

/-- Whatever signature is handed out is over a block that the validator has. -/
theorem releases_of_sent (hv : v.core.Coupled) {e : ValidatorEvent} {i : PeerIndex}
    {s : CommitSignature} (hsent : .one i (.blockSignature r s) ∈ (v.handle e).1) :
    ∃ b, v.Releases e b ∧ b.id = r := by
  obtain ⟨_, _, hs⟩ := handle_out_signature hsent
  rcases signatureOver?_eq_some hs with hblock | ⟨w, hw, rfl⟩
  · obtain ⟨b, hcurrent, rfl, _⟩ := hv.keeps r hblock
    exact ⟨b, ⟨.inl ⟨hblock, hcurrent⟩, _, hsent, rfl⟩, rfl⟩
  · exact ⟨w.block, ⟨.inr ⟨w, hw, rfl⟩, _, hsent, rfl⟩, rfl⟩

/-- **The signatures that a validator hands out in one run are over one block of a height**, unless one
is over a block that is not prepared, and the validator gives that block up before it hands out the
other one. -/
theorem released_signatures_agree {config : Config} {roster : Roster} {me : PeerIndex} {l : Ledger}
    {policy : BuildPolicy} {clock : WallClock} {now : Instant} {v : Node roster.size} (hl : l.Ordered)
    (hstart : Validator.start config roster me l policy clock now = .ok (.ok v))
    {run run' : List Happening} {e e' : ValidatorEvent} {b b' : Block}
    (hb : (v.after run).Releases e b) (hb' : (v.after (run ++ .event e :: run')).Releases e' b')
    (hheight : b.height = b'.height)
    (hheld : (v.after run).own.phase = .haveBlock → (v.after run).own.block = some b.id →
      ∀ part, part <+: .event e :: run' → (v.after (run ++ part)).own.height = b.height →
        (v.after (run ++ part)).own.phase ≠ .waitBlock) :
    b.id = b'.id := by
  have hv := coupled_after (coupled_start hl hstart) run
  rw [after_append] at hb'
  have hv' := coupled_after hv (.event e :: run')
  have hkept : ((v.after run).after (.event e :: run')).core.Keeps b.height b.id := by
    rcases hv.has_height hb.1 with hlocked | ⟨hheight, hblock, hphase⟩
    · exact .inl (locked_after hv _ hlocked)
    · refine keeps_after hv (.inr ⟨hheight, hblock⟩) fun part hpart => ?_
      rw [← after_append]
      exact hheld hphase hblock part hpart
  exact (hv'.keeps_unique hkept hb'.1 hheight.symm).symm

end Validator

section Quartet

local instance quartetSuite : CryptoSuite := plainSuite

/-- Validator 3 revolts with a quorum, and gets the block of the next round from validator 1. -/
def secondHeld : List Happening :=
  [.event .revolt,
    heard 1 (.status ⟨.zero, .ofNatClamped 1, .haveBlock, some (plainBlock 2).id, false, .ofNatClamped 1⟩),
    heard 2 (.status ⟨.zero, .zero, .waitBlock, none, true, .ofNatClamped 1⟩),
    heard 1 (.unfinishedBlock (plainBlock 2)), .event (.workDone ⟨0⟩), .event .resultTaken]

/-- Validator 2 asks for the signature over a block. -/
def signatureAsked (b : Block) : ValidatorEvent :=
  .message (quartet.indexOf 2) (.getBlockSignature b.id)

/-- Validator 3 hands out the signature over a block that it is prepared to commit, and hands out the
same one after a revolt. -/
theorem released_signatures_agree_prepared :
    ∃ v b b', plainStart (n := quartet) 3 = .ok (.ok v) ∧
      (v.after firstPrepared).Releases (signatureAsked (plainBlock 1)) b ∧
      (v.after (firstPrepared ++ .event (signatureAsked (plainBlock 1)) :: [.event .revolt])).Releases
        (signatureAsked (plainBlock 1)) b' ∧
      b.height = b'.height ∧ (v.after firstPrepared).own.phase = .prepared ∧ b.id = b'.id := by
  obtain ⟨v, hstart, hb, hb', hphase⟩ := exists_started (x := plainStart (n := quartet) 3)
    (P := fun v => (v.after firstPrepared).Releases (signatureAsked (plainBlock 1)) (plainBlock 1) ∧
      (v.after (firstPrepared ++ .event (signatureAsked (plainBlock 1)) :: [.event .revolt])).Releases
        (signatureAsked (plainBlock 1)) (plainBlock 1) ∧
      (v.after firstPrepared).own.phase = .prepared) (by decide +kernel)
  have hordered : (plainLedger (n := quartet) 3).Ordered := fun _ _ h => by cases h
  exact ⟨v, _, _, hstart, hb, hb', rfl, hphase, Validator.released_signatures_agree hordered hstart
    hb hb' rfl fun hheld => nomatch hphase.symm.trans hheld⟩

/-- A validator hands out its signature over a block that it gives up in a revolt, and then the one over
another block of the same height. -/
theorem released_signatures_differ :
    ∃ v, plainStart (n := quartet) 3 = .ok (.ok v) ∧
      (v.after firstHeld).Releases (signatureAsked (plainBlock 1)) (plainBlock 1) ∧
      (v.after (firstHeld ++ .event (signatureAsked (plainBlock 1)) :: secondHeld)).Releases
        (signatureAsked (plainBlock 2)) (plainBlock 2) ∧
      (plainBlock 1).height = (plainBlock 2).height ∧ (plainBlock 1).id ≠ (plainBlock 2).id :=
  exists_started (by decide +kernel)

end Quartet

end QuorumChain
