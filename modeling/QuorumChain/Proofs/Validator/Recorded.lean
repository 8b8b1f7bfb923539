import QuorumChain.Proofs.Validator.Decision

/-! Recorded signatures. A signature is checked against the block that is staged, but recorded for the
block of the own status. The two are the same block whatever happens in between, so a signature that is
recorded is one of the validator at its position over the block that the own status names. Nothing here
needs the keys of the validators to be distinct. -/

namespace QuorumChain

namespace Core

variable {n : ValidatorCount} [CryptoSuite] {c c' : Core n} {e : ValidatorEvent}

/-- Every recorded signature is valid over the block of the own status and of the validator that it is
recorded for. -/
def RecordsGenuine (c : Core n) : Prop :=
  ∀ (i : Fin n.total) (t : CommitSignature) (r : BlockId), c.view.signatures[i] = some t →
    c.view.own.block = some r → t.signer = c.keys[i] ∧ t.isValid r = true

/-- A block that was loaded or built is signed with the ledger's key. -/
def SignsOwn (c : Core n) : Prop :=
  ∀ b t, c.work = some (.done (.loaded b (.ok t))) ∨ c.work = some (.done (.built (.ok (b, t)))) →
    t = .sign b.id c.database.engine.key

/-- A validator whose ledger signs with the key at the validator's position, and what that does for the
signatures that it has. -/
structure Genuine (c : Core n) : Prop where
  coupled : c.Coupled
  key_eq : c.database.engine.key.publicKey = c.keys[c.view.me]
  signs : c.Signs
  recorded : c.RecordsGenuine
  signed : c.SignsOwn

/-- **A signature that the staged block bears out is valid over the block of the own status.** -/
theorem Coupled.verified (hc : c.Coupled) {id : BlockId} {t : CommitSignature} {database : Store}
    (hblock : c.view.own.block = some id) (h : c.database.verifySignature t = (true, database)) :
    t.isValid id = true ∧ ∃ s, c.database.staged = some s ∧ s.block.id = id := by
  obtain ⟨hfalse, _⟩ | ⟨_, k, k', hk, happly, _⟩ := Database.verifySignature_cases h
  · cases hfalse
  obtain ⟨s, hs, hfits⟩ := hc.sound.staged_of_collector hk
  have hid : s.block.id = id := (hc.staged_fits hblock hs).1
  have hvalid : t.isValid k.id = true := (SignatureCollector.apply_eq_ok.mp happly).2.1
  rw [hfits.id_eq, hid] at hvalid
  exact ⟨hvalid, s, hs, hid⟩

namespace RecordsGenuine

/-- The view may change if it takes no signature and no other block. -/
theorem withView (hg : c.RecordsGenuine) {view : View n} (hp : c.view.own.Persists view.own)
    (hslots : ∀ (i : Fin n.total) (t : CommitSignature), view.signatures[i] = some t →
      c.view.signatures[i] = some t) : RecordsGenuine { c with view } :=
  fun i t r ht hr => hg i t r (hslots i t ht) (hp.block_eq hr)

/-- A signature that is heard was checked before it is recorded. -/
theorem hear (hg : c.RecordsGenuine) (hc : c.Coupled) {sender : PeerIndex} {i : Fin n.total}
    {id : BlockId} {s : CommitSignature} {database : Store} {outcome : Outcome} {view : View n}
    (hsender : n.memberAt? sender = some i) (hkey : c.keys[i] = s.signer)
    (hblock : c.view.own.block = some id) (hvalid : c.database.verifySignature s = (true, database))
    (hview : c.view.handle (.signature sender id s) = .ok (outcome, view)) :
    RecordsGenuine { c with database, view } := by
  intro j t r ht hr
  have hp := (View.handle_quiet (e := .signature _ _ _) trivial hview).2
  have hr : c.view.own.block = some r := hp.block_eq hr
  rcases View.handle_quiet_slots (e := .signature _ _ _) trivial hview ht with
    hold | ⟨peer, id', heq, hpeer⟩
  · exact hg j t r hold hr
  · cases heq
    cases Option.some.inj (hpeer.symm.trans hsender)
    cases Option.some.inj (hr.symm.trans hblock)
    exact ⟨hkey.symm, (hc.verified hblock hvalid).1⟩

/-- The only signature over a block that is taken is the validator's own. -/
theorem takeSigned (hg : c.RecordsGenuine) (hsigns : c.Signs)
    (hkey : c.database.engine.key.publicKey = c.keys[c.view.me]) {b : Block} {own : CommitSignature}
    {ve : ViewEvent} {outcome : Outcome} {view : View n} {current : Option Block}
    (hown : own = .sign b.id c.database.engine.key)
    (hve : ve = .received b.id own ∨ ve = .built b.id own)
    (hview : c.view.handle ve = .ok (outcome, view)) :
    RecordsGenuine { c with view, current, processing := false, work := none } := by
  intro i t r ht hr
  rcases View.handle_signed hve hview with ⟨_, _, hsame, hslots⟩ | ⟨_, serial, hrec⟩
  · exact hg i t r (hslots ▸ ht) (hsame ▸ hr)
  · obtain ⟨rfl, rfl⟩ := View.recompute_holding_slots hrec ht
    obtain rfl : r = b.id := (View.recompute_holding hrec).2.2 r hr
    rw [hown]
    exact ⟨hkey, hsigns b.id⟩

theorem take (hg : c.RecordsGenuine) (hc : c.Coupled) (hsigns : c.Signs) (hsigned : c.SignsOwn)
    (hkey : c.database.engine.key.publicKey = c.keys[c.view.me]) (hrunning : c.running = true)
    {result : Completion LedgerError} {view : View n} {current : Option Block}
    (hwork : c.work = some (.done result)) (h : Takes c.view c.current result view current) :
    RecordsGenuine { c with view, current, processing := false, work := none } := by
  have hadmits := hc.admits hrunning
  rw [hwork] at hadmits
  cases h with
  | failed _ => exact hg
  | loaded hview => exact hg.takeSigned hsigns hkey (hsigned _ _ (.inl hwork)) (.inl rfl) hview
  | built hview => exact hg.takeSigned hsigns hkey (hsigned _ _ (.inr hwork)) (.inr rfl) hview
  | added hnext hview =>
      obtain ⟨_, _, rfl⟩ := hadmits
      obtain ⟨_, _, _, _, hnone⟩ := View.handle_advanced (Counter.next_eq_some.mpr hnext) hview
      exact fun i t r _ hr => nomatch hnone.symm.trans hr
  | committed hview =>
      obtain ⟨_, _, hblock⟩ := hadmits
      obtain ⟨_, _, _, _, hnone⟩ := View.handle_committed hblock hview
      exact fun i t r _ hr => nomatch hnone.symm.trans hr

end RecordsGenuine

theorem SignsOwn.step (hsigned : c.SignsOwn) (hs : Step e c c') : c'.SignsOwn := by
  intro b t h
  rw [(SameSettings.step hs).key_eq]
  cases hs with
  | view _ _ => exact hsigned b t h
  | jump _ _ _ _ => exact hsigned b t h
  | hear _ _ _ _ _ _ => exact hsigned b t h
  | issue _ _ => rcases h with h | h <;> cases h
  | run _ _ hd =>
      have hperforms := Database.perform_cases hd
      rw [← hperforms.settings_eq.1]
      exact signed_of_performs hperforms (by simpa only [Option.some.injEq, Work.done.injEq] using h)
  | take _ _ _ => rcases h with h | h <;> cases h

namespace Genuine

/-- **Every step keeps recorded signatures genuine.** -/
theorem step (hg : c.Genuine) (hrunning : c.running = true) (hs : Step e c c') : c'.Genuine where
  coupled := hg.coupled.step hrunning hs
  key_eq := by
    simp only [(SameSettings.step hs).key_eq, (SameSettings.step hs).keys_eq, (SameSettings.step hs).me_eq]
    exact hg.key_eq
  signs id := by
    rw [(SameSettings.step hs).key_eq]
    exact hg.signs id
  recorded := by
    cases hs with
    | view hve hview =>
        refine hg.recorded.withView (View.handle_quiet hve.isQuiet hview).2 fun i t ht => ?_
        rcases View.handle_quiet_slots hve.isQuiet hview ht with hold | ⟨peer, id, rfl, _⟩
        · exact hold
        · cases hve
    | jump hidle hbest hge _ =>
        exact absurd hge (hg.coupled.not_below_best (hg.coupled.idle hrunning hidle).2 hbest)
    | hear _ hsender hkey hblock hvalid hview =>
        exact hg.recorded.hear hg.coupled hsender hkey hblock hvalid hview
    | issue _ _ => exact hg.recorded
    | run _ _ _ => exact hg.recorded
    | take _ hwork htakes =>
        exact hg.recorded.take hg.coupled hg.signs hg.signed hg.key_eq hrunning hwork htakes
  signed := hg.signed.step hs

theorem halt (hg : c.Genuine) : c.halt.Genuine where
  coupled := hg.coupled.halt
  key_eq := by
    rw [(SameSettings.halt c).key_eq]
    exact hg.key_eq
  signs id := by
    rw [(SameSettings.halt c).key_eq]
    exact hg.signs id
  recorded := hg.recorded
  signed b t h := by rcases h with h | h <;> cases h

theorem engine {l : Ledger} (hg : c.Genuine) (hkey : l.key = c.database.engine.key)
    (hpeers : l.peers = c.database.engine.peers) (hblocks : l.blocks = c.database.engine.blocks) :
    Genuine { c with database := { c.database with engine := l } } where
  coupled := Validator.coupled_engine hg.coupled hkey hpeers hblocks
  key_eq := hkey ▸ hg.key_eq
  signs id := by
    rw [hkey]
    exact hg.signs id
  recorded := hg.recorded
  signed b t h := hkey ▸ hg.signed b t h

end Genuine

end Core

namespace Validator

open QuorumChain.Core

variable {n : ValidatorCount} [CryptoSuite] {v : Node n}

theorem genuine_after (hv : v.core.Genuine) (run : List Happening) : (v.after run).core.Genuine :=
  after_induction hv fun _ hx => meet_induction (P := Genuine) Genuine.step Genuine.halt Genuine.engine hx

theorem keys_after (v : Node n) (run : List Happening) : (v.after run).keys = v.keys :=
  after_induction (P := fun c => c.keys = v.keys) rfl fun _ hx =>
    meet_induction (P := fun c => c.keys = v.keys)
      (fun hc _ hs => (SameSettings.step hs).keys_eq.trans hc) (fun hc => hc) (fun hc _ _ _ => hc) hx

section Start

variable {config : Config} {roster : Roster} {me : PeerIndex} {l : Ledger} {policy : BuildPolicy}
  {clock : WallClock} {now : Instant} {v : Node roster.size}

theorem genuine_start (hl : l.Ordered)
    (hkey : ∀ i, roster.size.memberAt? me = some i → l.key.publicKey = roster.keys[i])
    (hsigns : ∀ id, (CommitSignature.sign id l.key).isValid id = true)
    (h : Validator.start config roster me l policy clock now = .ok (.ok v)) : v.core.Genuine := by
  have hcoupled := coupled_start hl h
  obtain ⟨next, serial, view, _, hview, hcore⟩ := start_core hl h
  obtain ⟨hme, hown, _⟩ := View.start_ok hview
  rw [hcore] at hcoupled ⊢
  refine ⟨hcoupled, hkey _ hme, hsigns, fun i t r _ hr => ?_, fun b t hwork => ?_⟩
  · have hr : view.own.block = some r := hr
    rw [hown] at hr
    cases hr
  · rcases hwork with hwork | hwork <;> cases hwork

/-- **Every recorded signature is genuine**, in whatever order messages, ticks and results of work come
and whatever the messages say: the validator has a block, and the signature is valid over that block and
of the validator at its position. And a signature that passes the checks before it is recorded for a
block was checked against that block. -/
theorem recorded_signatures_genuine (hl : l.Ordered)
    (hkey : ∀ i, roster.size.memberAt? me = some i → l.key.publicKey = roster.keys[i])
    (hsigns : ∀ id, (CommitSignature.sign id l.key).isValid id = true)
    (hstart : Validator.start config roster me l policy clock now = .ok (.ok v))
    (run : List Happening) :
    (∀ (i : Fin roster.size.total) (t : CommitSignature),
      (v.after run).executor.view.signatures[i] = some t →
      ∃ r, (v.after run).own.block = some r ∧ t.signer = roster.keys[i] ∧ t.isValid r = true) ∧
    (∀ sender id t, (v.after run).expects sender id t = true →
      ((v.after run).executor.database.verifySignature t).1 = true →
      t.isValid id = true ∧ ∃ s, (v.after run).executor.database.staged = some s ∧ s.block.id = id) := by
  have hg := genuine_after (genuine_start hl hkey hsigns hstart) run
  have hkeys : (v.after run).keys = roster.keys := by
    obtain ⟨_, _, _, _, _, hcore⟩ := start_core hl hstart
    rw [keys_after]
    exact congrArg Core.keys hcore
  constructor
  · intro i t ht
    have hwaits : (v.after run).core.view.own.phase ≠ .waitBlock := fun hwait =>
      nomatch (hg.coupled.coherent.waiting_slots hwait i).symm.trans ht
    obtain ⟨r, hr⟩ := hg.coupled.coherent.exists_block hwaits
    obtain ⟨hsigner, hvalid⟩ := hg.recorded i t r ht hr
    refine ⟨r, hr, ?_, hvalid⟩
    rw [hsigner]
    change (v.after run).keys[i] = roster.keys[i]
    rw [hkeys]
  · intro sender id t hexpects hverify
    have hblock : (v.after run).core.view.own.block = some id := by
      unfold expects at hexpects
      split at hexpects
      · exact (of_decide_eq_true (Bool.and_eq_true_iff.mp hexpects).2)
      · cases hexpects
    exact hg.coupled.verified hblock (Prod.ext hverify rfl)

end Start

end Validator

section Plain

local instance plainRecordedSuite : CryptoSuite := plainSuite

/-- Validator 3 has recorded the signature of validator 1 over its block, and would take that of
validator 2. -/
theorem recorded_signatures_genuine_quartet :
    ∃ v s r, plainStart (n := quartet) 3 = .ok (.ok v) ∧
      (v.after firstDecided).executor.view.signatures[(1 : Fin quartet.total)] = some s ∧
      (v.after firstDecided).own.block = some r ∧ s.signer = (plainRoster quartet).keys[(1 : Fin quartet.total)] ∧
      s.isValid r = true ∧
      ∃ b, (v.after firstDecided).executor.database.staged = some b ∧ b.block.id = (plainBlock 1).id := by
  obtain ⟨v, hstart, hrecorded, hexpects, hverify⟩ :=
    exists_started (x := plainStart (n := quartet) 3)
      (P := fun v =>
        ((v.after firstDecided).executor.view.signatures[(1 : Fin quartet.total)]).isSome = true ∧
        (v.after firstDecided).expects (quartet.indexOf 2) (plainBlock 1).id
          (.sign (plainBlock 1).id (plainKey (n := quartet) 2)) = true ∧
        ((v.after firstDecided).executor.database.verifySignature
          (.sign (plainBlock 1).id (plainKey (n := quartet) 2))).1 = true) (by decide +kernel)
  obtain ⟨s, hs⟩ := Option.isSome_iff_exists.mp hrecorded
  obtain ⟨hgenuine, hchecked⟩ := Validator.recorded_signatures_genuine (fun _ _ h => by cases h)
    (fun i hi => by revert i; decide +kernel) (fun id => plain_sign_valid id _) hstart firstDecided
  obtain ⟨r, hr, hsigner, hvalid⟩ := hgenuine 1 s hs
  exact ⟨v, s, r, hstart, hs, hr, hsigner, hvalid, (hchecked _ _ _ hexpects hverify).2⟩

end Plain

end QuorumChain
