import QuorumChain.Proofs.Plain
import QuorumChain.Proofs.Validator.Settings

/-! Decisions to commit. A signature gets into the view only after the collector of the staged block has
taken it, so a validator that has the signatures of a quorum can make the witness of its block, and the
ledger accepts that. -/

namespace QuorumChain

namespace Core

variable {n : ValidatorCount} [CryptoSuite] {c c' : Core n} {e : ValidatorEvent}

/-- The block at hand is staged, and its collector has a signature of every validator that the view has
one of. -/
def Collects (c : Core n) : Prop :=
  ∃ s k, c.database.staged = some s ∧ c.database.collector = some k ∧
    ∀ (i : Fin n.total) (t : CommitSignature), c.view.signatures[i] = some t →
      ∃ u ∈ k.signatures, u.signer = t.signer

/-- Is the block at hand stored, with the result of that not taken yet? -/
def Storing (c : Core n) : Prop := ∃ b, c.work = some (.done (.committed b (.ok ())))

/-- What is true of the signatures of a validator that takes part. -/
structure Armed (c : Core n) : Prop where
  genuine : ∀ (i : Fin n.total) (t : CommitSignature), c.view.signatures[i] = some t →
    t.signer = c.keys[i]
  collects : ¬ c.Storing → c.view.own.block ≠ none → c.Collects
  signed : ∀ b t, c.work = some (.done (.loaded b (.ok t))) ∨
    c.work = some (.done (.built (.ok (b, t)))) → t = .sign b.id c.database.engine.key
  decided : ∀ b signatures, c.work = some (.issued (.commit b signatures)) →
    ∃ k, c.database.collector = some k ∧ k.isComplete = true

/-- The ledger's own signatures are valid. -/
def Signs (c : Core n) : Prop :=
  ∀ id, (CommitSignature.sign id c.database.engine.key).isValid id = true

theorem Equipped.threshold_eq (hq : c.Equipped) : c.database.engine.threshold = c.view.quorum := by
  rw [Ledger.threshold, hq.peers_eq, Vector.length_toList]
  rfl

/-- A collector that takes the own signature makes witnesses that the ledger accepts. -/
theorem Equipped.verify_witness (hq : c.Equipped) (hsigns : c.Signs) {b : Block}
    {k : SignatureCollector} (hfits : k.Fits c.database.engine b) (hcomplete : k.isComplete = true) :
    Witness.verify ⟨k.signatures⟩ b.id c.database.engine.peers c.database.engine.threshold = .ok () := by
  refine hfits.verify_witness hcomplete ?_
  rw [hfits.own_eq]
  refine ⟨?_, hsigns b.id⟩
  show c.database.engine.key.publicKey ∈ c.database.engine.peers
  rw [hq.key_eq, hq.peers_eq, Vector.mem_toList_iff]
  exact Vector.getElem_mem _

/-- There are as many different signers as signatures. -/
theorem Armed.nodup (ha : c.Armed) (hq : c.Equipped) : (c.view.recorded.map (·.signer)).Nodup := by
  rw [View.recorded_eq, List.map_filterMap]
  refine List.Nodup.filterMap (fun i j key hi hj => ?_) (List.nodup_finRange _)
  obtain ⟨t, ht, rfl⟩ := Option.map_eq_some_iff.mp hi
  obtain ⟨u, hu, hsame⟩ := Option.map_eq_some_iff.mp hj
  refine hq.keys_injective ?_
  rw [← ha.genuine i t ht, ← ha.genuine j u hu, hsame]

/-- A collector that has a signature of every validator that the view has one of is complete, if the
view has those of a quorum. -/
theorem Armed.complete (ha : c.Armed) (hq : c.Equipped)
    (hquorum : c.view.quorum ≤ c.view.recorded.length) {b : Block} {k : SignatureCollector}
    (hfits : k.Fits c.database.engine b)
    (hall : ∀ (i : Fin n.total) (t : CommitSignature), c.view.signatures[i] = some t →
      ∃ u ∈ k.signatures, u.signer = t.signer) : k.isComplete = true := by
  refine hfits.isComplete_of_signers (ha.nodup hq) (fun key hkey => ?_) ?_
  · obtain ⟨t, ht, rfl⟩ := List.mem_map.mp hkey
    obtain ⟨i, hi⟩ := View.mem_recorded.mp ht
    exact hall i t hi
  · rw [List.length_map, hq.threshold_eq]
    exact hquorum

/-- Issuing the commit of the block at hand. -/
theorem Armed.decide (ha : c.Armed) (hc : c.Coupled) (hq : c.Equipped) (hrunning : c.running = true)
    (hidle : c.processing = false) (hintent : c.view.intent = .commitBlock) :
    ∃ s k, c.database.staged = some s ∧ c.database.collector = some k ∧ k.isComplete = true := by
  have hfits := hc.coherent.intent_fits
  rw [hintent] at hfits
  obtain ⟨r, hr⟩ := hc.coherent.exists_block (by rw [hfits.1]; exact nofun)
  have hblock : c.view.own.block ≠ none := by
    rw [hr]
    exact nofun
  have hstoring : ¬ c.Storing := fun ⟨b, hb⟩ => nomatch (hc.idle hrunning hidle).1.symm.trans hb
  obtain ⟨s, k, hs, hk, hall⟩ := ha.collects hstoring hblock
  obtain ⟨_, _, hfits'⟩ := hc.sound.staged_of_collector hk
  exact ⟨s, k, hs, hk, ha.complete hq hfits.2 hfits' hall⟩

/-- **A commit that was issued succeeds**, unless the engine is closed or the database stopped. -/
theorem Armed.commit_ok (ha : c.Armed) (hc : c.Coupled) (hq : c.Equipped) (hsigns : c.Signs)
    {b : Block} {signatures : List CommitSignature}
    (hwork : c.work = some (.issued (.commit b signatures))) (hopen : c.database.engine.closed = false)
    (hstarted : c.database.stopped = false) : (c.database.commit signatures).1 = .ok () := by
  obtain ⟨k, hk, hcomplete⟩ := ha.decided b signatures hwork
  obtain ⟨s, hs, hfits⟩ := hc.sound.staged_of_collector hk
  obtain ⟨hfits', hsubset, _⟩ := SignatureCollector.applyAll_spec signatures hfits
  have hcomplete' := hfits.isComplete_of_subset hfits' hcomplete hsubset
  refine Database.commit_eq_ok hstarted hopen hs hk hcomplete' ?_
  exact Ledger.checkCommit_eq_ok.mpr
    ⟨hq.verify_witness hsigns hfits' hcomplete', hc.sound.extends_chain s hs⟩

/-- The view may change if it takes no signature and no other block. -/
theorem Armed.withView (ha : c.Armed) {view : View n} (hp : c.view.own.Persists view.own)
    (hslots : ∀ (i : Fin n.total) (t : CommitSignature), view.signatures[i] = some t →
      c.view.signatures[i] = some t) : Armed { c with view } where
  genuine i t ht := ha.genuine i t (hslots i t ht)
  collects hstoring hblock := by
    obtain ⟨s, k, hs, hk, hall⟩ := ha.collects hstoring (hp.block_ne_none hblock)
    exact ⟨s, k, hs, hk, fun i t ht => hall i t (hslots i t ht)⟩
  signed := ha.signed
  decided := ha.decided

theorem Armed.hear (ha : c.Armed) (hc : c.Coupled) {sender : PeerIndex} {i : Fin n.total} {id : BlockId}
    {s : CommitSignature} {database : Store} {outcome : Outcome} {view : View n}
    (hsender : n.memberAt? sender = some i) (hkey : c.keys[i] = s.signer)
    (hvalid : c.database.verifySignature s = (true, database))
    (hview : c.view.handle (.signature sender id s) = .ok (outcome, view)) :
    Armed { c with database, view } := by
  obtain ⟨hfalse, _⟩ | ⟨_, k, k', hk, happly, rfl⟩ := Database.verifySignature_cases hvalid
  · cases hfalse
  obtain ⟨hkeep, _, hnew⟩ := SignatureCollector.apply_signatures happly
  have hslots : ∀ (j : Fin n.total) (t : CommitSignature), view.signatures[j] = some t →
      c.view.signatures[j] = some t ∨ (j = i ∧ t = s) := by
    intro j t ht
    rcases View.handle_quiet_slots (e := .signature _ _ _) trivial hview ht with
      hold | ⟨peer, id', heq, hpeer⟩
    · exact .inl hold
    · cases heq
      exact .inr ⟨Option.some.inj (hpeer.symm.trans hsender), rfl⟩
  refine ⟨fun j t ht => ?_, fun hstoring hblock => ?_, ha.signed, fun b signatures hwork => ?_⟩
  · rcases hslots j t ht with hold | ⟨rfl, rfl⟩
    · exact ha.genuine j t hold
    · exact hkey.symm
  · have hp := (View.handle_quiet (e := .signature _ _ _) trivial hview).2
    obtain ⟨s₀, k₀, hs₀, hk₀, hall⟩ := ha.collects hstoring (hp.block_ne_none hblock)
    cases Option.some.inj (hk.symm.trans hk₀)
    refine ⟨s₀, k', hs₀, rfl, fun j t ht => ?_⟩
    rcases hslots j t ht with hold | ⟨rfl, rfl⟩
    · obtain ⟨u, hu, hsame⟩ := hall j t hold
      exact ⟨u, hkeep hu, hsame⟩
    · exact hnew
  · obtain ⟨k₀, hk₀, hcomplete⟩ := ha.decided b signatures hwork
    cases Option.some.inj (hk.symm.trans hk₀)
    obtain ⟨_, _, hfits⟩ := hc.sound.staged_of_collector hk
    exact ⟨k', rfl, hfits.isComplete_of_subset (hfits.apply happly) hcomplete hkeep⟩

/-- A validator without a block has no signatures, and so nothing to be armed with. -/
theorem armed_waiting (hcoherent : c.view.Coherent) (hwait : c.view.own.phase = .waitBlock)
    (hwork : c.work = none) : c.Armed where
  genuine i t ht := nomatch (hcoherent.waiting_slots hwait i).symm.trans ht
  collects _ hblock := absurd (hcoherent.waits_iff.mp hwait) hblock
  signed b t h := by
    rw [hwork] at h
    rcases h with h | h <;> cases h
  decided b signatures h := nomatch hwork.symm.trans h

theorem Armed.issue (ha : c.Armed) (hc : c.Coupled) (hq : c.Equipped) (hrunning : c.running = true)
    (hidle : c.processing = false) {task : Task} (htask : Calls c e task) :
    Armed { c with processing := true, work := some (.issued task) } := by
  have hnone := (hc.idle hrunning hidle).1
  refine ⟨ha.genuine, fun _ hblock => ?_, fun b t h => ?_, fun b signatures h => ?_⟩
  · exact ha.collects (fun ⟨b, hb⟩ => nomatch hnone.symm.trans hb) hblock
  · rcases h with h | h <;> cases h
  · cases htask with
    | load _ => cases h
    | add _ _ _ => cases h
    | build _ => cases h
    | commit hintent _ _ =>
        obtain ⟨_, k, _, hk, hcomplete⟩ := ha.decide hc hq hrunning hidle hintent
        exact ⟨k, hk, hcomplete⟩

/-- A block that is asked for or built is signed with the ledger's key. -/
theorem signed_of_performs {task : Task} {result : Completion LedgerError} {database : Store}
    (h : c.database.Performs task result database) {b : Block} {t : CommitSignature}
    (hresult : result = .loaded b (.ok t) ∨ result = .built (.ok (b, t))) :
    t = .sign b.id database.engine.key := by
  rw [h.settings_eq.1]
  cases h with
  | loaded _ =>
      rcases hresult with heq | heq <;> cases heq
      rfl
  | built _ =>
      rcases hresult with heq | heq <;> cases heq
      rfl
  | added _ => rcases hresult with heq | heq <;> cases heq
  | committed _ _ _ => rcases hresult with heq | heq <;> cases heq
  | failed hfailure _ =>
      rcases hresult with rfl | rfl
      · obtain ⟨_, heq⟩ := hfailure
        cases heq
      · obtain ⟨_, heq⟩ := hfailure
        cases heq

theorem Armed.run (ha : c.Armed) (hc : c.Coupled) (hq : c.Equipped) (hsigns : c.Signs)
    (hrunning : c.running = true) {clock : WallClock} {task : Task} {result : Completion LedgerError}
    {database : Store} (hwork : c.work = some (.issued task))
    (h : c.database.perform clock task = (result, database)) :
    Armed { c with database, work := some (.done result) } := by
  have hadmits := hc.admits hrunning
  rw [hwork] at hadmits
  refine ⟨ha.genuine, fun hstoring hblock => ?_, fun b t ht => ?_, ?_⟩
  · have hwaits : c.view.own.phase ≠ .waitBlock := fun hwait =>
      hblock (hc.coherent.waits_iff.mp hwait)
    cases task with
    | load b => exact absurd hadmits.2 hwaits
    | add height b => exact absurd hadmits.2.1 hwaits
    | build => exact absurd hadmits.2 hwaits
    | commit b signatures =>
        cases hcommit : c.database.commit signatures with
        | mk r d =>
            simp only [Database.perform, hcommit, Prod.mk.injEq] at h
            obtain ⟨rfl, rfl⟩ := h
            rcases Database.ifOpen_cases hcommit with ⟨rfl, _⟩ | ⟨hstarted, hopen, _⟩
            · refine ha.collects ?_ hblock
              rintro ⟨b, hb⟩
              rw [hwork] at hb
              cases hb
            · have hok := ha.commit_ok hc hq hsigns hwork hopen hstarted
              rw [hcommit] at hok
              cases hok
              exact absurd ⟨b, rfl⟩ hstoring
  · refine signed_of_performs (Database.perform_cases h) ?_
    simpa only [Option.some.injEq, Work.done.injEq] using ht
  · intro b signatures heq
    cases heq

theorem armed_signed (hc : c.Coupled) (hq : c.Equipped) {b : Block}
    {own : CommitSignature} {ve : ViewEvent} {outcome : Outcome} {view : View n}
    {current : Option Block} (hown : own = .sign b.id c.database.engine.key)
    (hadmits : c.OnLevel ∧ c.view.own.phase = .waitBlock ∧ b.height = c.view.own.height ∧
      ∃ s, c.database.staged = some s ∧ s.block = b)
    (hve : ve = .received b.id own ∨ ve = .built b.id own)
    (hview : c.view.handle ve = .ok (outcome, view)) :
    Armed { c with view, current, processing := false, work := none } := by
  obtain ⟨_, hwait, _, s, hs, rfl⟩ := hadmits
  rcases View.handle_signed hve hview with ⟨_, _, hsame, _⟩ | ⟨rfl, serial, hrec⟩
  · exact armed_waiting (hc.coherent.handle hview) (hsame ▸ hwait) rfl
  · have hslots : ∀ (i : Fin n.total) (t : CommitSignature), view.signatures[i] = some t →
        i = c.view.me ∧ t = own := fun i t ht => View.recompute_holding_slots hrec ht
    refine ⟨fun i t ht => ?_, fun _ _ => ?_, fun b t h => ?_, fun b signatures h => nomatch h⟩
    · obtain ⟨rfl, rfl⟩ := hslots i t ht
      rw [hown]
      exact hq.key_eq
    · obtain ⟨k, hk, hfits⟩ := hc.sound.collects s hs
      refine ⟨s, k, hs, hk, fun i t ht => ?_⟩
      obtain ⟨rfl, rfl⟩ := hslots i t ht
      exact ⟨k.own, hfits.own_mem, by rw [hfits.own_eq, hown]⟩
    · rcases h with h | h <;> cases h

theorem Armed.take (ha : c.Armed) (hc : c.Coupled) (hq : c.Equipped) (hrunning : c.running = true)
    {result : Completion LedgerError} {view : View n} {current : Option Block}
    (hwork : c.work = some (.done result)) (h : Takes c.view c.current result view current) :
    Armed { c with view, current, processing := false, work := none } := by
  have hadmits := hc.admits hrunning
  rw [hwork] at hadmits
  cases h with
  | failed hresult =>
      refine ⟨ha.genuine, fun _ hblock => ha.collects (fun ⟨b, hb⟩ => ?_) hblock, fun b t h => ?_,
        fun b signatures h => nomatch h⟩
      · cases Option.some.inj (hwork.symm.trans hb)
        obtain ⟨_, heq⟩ := hresult
        cases heq
      · rcases h with h | h <;> cases h
  | loaded hview => exact armed_signed hc hq (ha.signed _ _ (.inl hwork)) hadmits (.inl rfl) hview
  | built hview => exact armed_signed hc hq (ha.signed _ _ (.inr hwork)) hadmits (.inr rfl) hview
  | added hnext hview =>
      obtain ⟨_, _, rfl⟩ := hadmits
      obtain ⟨_, _, _, hwait, _⟩ := View.handle_advanced (Counter.next_eq_some.mpr hnext) hview
      exact armed_waiting (hc.coherent.handle hview) hwait rfl
  | committed hview =>
      obtain ⟨_, _, hblock⟩ := hadmits
      obtain ⟨_, _, _, hwait, _⟩ := View.handle_committed hblock hview
      exact armed_waiting (hc.coherent.handle hview) hwait rfl

/-- **Every step keeps a validator armed.** -/
theorem Armed.step (ha : c.Armed) (hc : c.Coupled) (hq : c.Equipped) (hsigns : c.Signs)
    (hrunning : c.running = true) (hs : Step e c c') : c'.Armed := by
  cases hs with
  | view hve hview =>
      refine ha.withView (View.handle_quiet hve.isQuiet hview).2 fun i t ht => ?_
      rcases View.handle_quiet_slots hve.isQuiet hview ht with hold | ⟨peer, id, rfl, _⟩
      · exact hold
      · cases hve
  | jump hidle hbest hge _ => exact absurd hge (hc.not_below_best (hc.idle hrunning hidle).2 hbest)
  | hear _ hsender hkey _ hvalid hview => exact ha.hear hc hsender hkey hvalid hview
  | issue hidle htask => exact ha.issue hc hq hrunning hidle htask
  | run _ hwork h => exact ha.run hc hq hsigns hrunning hwork h
  | take _ hwork htakes => exact ha.take hc hq hrunning hwork htakes

/-- What is known of a validator that has the settings of its ledger. -/
structure Fit (c : Core n) : Prop where
  coupled : c.Coupled
  equipped : c.Equipped
  signs : c.Signs
  armed : c.running = true → c.Armed

theorem Fit.step (hc : Fit c) (hrunning : c.running = true)
    (hs : Step e c c') : Fit c' where
  coupled := hc.coupled.step hrunning hs
  equipped := (SameSettings.step hs).equipped hc.equipped
  signs id := by
    rw [(SameSettings.step hs).key_eq]
    exact hc.signs id
  armed _ := (hc.armed hrunning).step hc.coupled hc.equipped hc.signs hrunning hs

theorem Fit.halt (hc : Fit c) : Fit c.halt where
  coupled := hc.coupled.halt
  equipped := (SameSettings.halt c).equipped hc.equipped
  signs id := by
    rw [(SameSettings.halt c).key_eq]
    exact hc.signs id
  armed := nofun

theorem Fit.engine {l : Ledger} (hc : Fit c) (hkey : l.key = c.database.engine.key)
    (hpeers : l.peers = c.database.engine.peers) (hblocks : l.blocks = c.database.engine.blocks) :
    Fit { c with database := { c.database with engine := l } } where
  coupled := Validator.coupled_engine hc.coupled hkey hpeers hblocks
  equipped := ⟨hc.equipped.distinct, hpeers.trans hc.equipped.peers_eq, hkey ▸ hc.equipped.key_eq⟩
  signs id := by
    rw [hkey]
    exact hc.signs id
  armed hrunning :=
    have ha := hc.armed hrunning
    ⟨ha.genuine, ha.collects, fun b t h => hkey ▸ ha.signed b t h, ha.decided⟩

end Core

namespace Validator

open QuorumChain.Core

variable {n : ValidatorCount} [CryptoSuite] {v : Node n}

theorem fit_after (hv : v.core.Fit) (run : List Happening) : (v.after run).core.Fit :=
  after_induction hv fun _ hx => meet_induction (P := Fit) Fit.step Fit.halt Fit.engine hx

section Start

variable {config : Config} {roster : Roster} {me : PeerIndex} {l : Ledger} {policy : BuildPolicy}
  {clock : WallClock} {now : Instant} {v : Node roster.size}

theorem fit_start (hl : l.Ordered) (hdistinct : roster.keys.toList.Nodup)
    (hpeers : l.peers = roster.keys.toList)
    (hkey : ∀ i, roster.size.memberAt? me = some i → l.key.publicKey = roster.keys[i])
    (hsigns : ∀ id, (CommitSignature.sign id l.key).isValid id = true)
    (h : Validator.start config roster me l policy clock now = .ok (.ok v)) : v.core.Fit := by
  have hcoupled := coupled_start hl h
  obtain ⟨next, serial, view, _, hview, hcore⟩ := start_core hl h
  obtain ⟨hme, hown, _⟩ := View.start_ok hview
  rw [hcore] at hcoupled ⊢
  refine ⟨hcoupled, ⟨hdistinct, hpeers, hkey _ hme⟩, hsigns, fun _ => ?_⟩
  exact armed_waiting hcoupled.coherent (by rw [hown]; rfl) rfl

end Start

/-- A commit that is intended is issued, for the block that is staged. -/
theorem update_commit (hv : v.core.Fit) (hrunning : v.running = true)
    (hidle : v.executor.processing = false) {x : Executor n Ledger StagedBlock SignatureCollector}
    (hintent : v.executor.viewIntent = .ok (.commitBlock, x)) :
    ∃ b s, x.current = some b ∧ x.view.own.block = some b.id ∧ x.database.staged = some s ∧
      s.block = b ∧ ∀ clock, v.executor.update clock =
        .ok (some (.commit b x.view.recorded), { x with processing := true }) := by
  obtain ⟨outcome, view, hview, rfl, hcommit⟩ := Executor.viewIntent_eq_ok.mp hintent
  have hstep : Step (.intentWanted ⟨0⟩) v.core { v.core with view } := .view .refresh hview
  have hc := hv.step hrunning hstep
  obtain ⟨s, _, hs, _⟩ := (hc.armed hrunning).decide hc.coupled hc.equipped hrunning hidle hcommit.symm
  have hfits := hc.coupled.coherent.intent_fits
  rw [← hcommit] at hfits
  obtain ⟨r, hr⟩ := hc.coupled.coherent.exists_block (by rw [hfits.1]; exact nofun)
  obtain ⟨b, hcurrent, rfl, _⟩ := hc.coupled.keeps r hr
  have hsame := hc.coupled.matching _ s hr hs
  have hready : ∀ processing, Executor.blockToCommit? { v.executor with view, processing } = some b := by
    intro processing
    change v.executor.current = some b at hcurrent
    change view.own.block = some b.id at hr
    simp [Executor.blockToCommit?, hcurrent, hr]
  refine ⟨b, s, hcurrent, hr, hs, Option.some.inj (hsame.symm.trans hcurrent), fun clock => ?_⟩
  unfold Executor.update
  rw [if_neg (by simp [hidle]), hintent]
  simp only [bind, Except.bind, hready, Executor.issue, hidle]
  rfl

/-- A commit that was issued stores its block when it is done. -/
theorem workDone_commit (hv : v.core.Fit) (hrunning : v.running = true) {b : Block}
    {signatures : List CommitSignature} (hwork : v.work = some (.issued (.commit b signatures)))
    (hopen : v.executor.database.engine.closed = false) (hstarted : v.executor.database.stopped = false)
    (clock : WallClock) :
    (v.handle (.workDone clock)).2.work = some (.done (.committed b (.ok ()))) ∧
      ∃ w, (v.handle (.workDone clock)).2.core.blocks = v.core.blocks ++ [⟨b, w⟩] := by
  have hok := (hv.armed hrunning).commit_ok hv.coupled hv.equipped hv.signs hwork hopen hstarted
  change (v.executor.database.commit signatures).1 = .ok () at hok
  have hadmits := hv.coupled.admits hrunning
  have hwork' : v.core.work = some (.issued (.commit b signatures)) := hwork
  rw [hwork'] at hadmits
  obtain ⟨_, _, hblock, hcurrent⟩ := hadmits
  rcases hcommit : v.executor.database.commit signatures with ⟨r, d⟩
  rw [hcommit] at hok
  cases hok
  have hdone : (v.handle (.workDone clock)).2 =
      { v with
        executor := { v.executor with database := d }
        work := some (.done (.committed b (.ok ()))) } := by
    simp only [handle, hrunning, if_true, react, runWork, hwork, Executor.run_eq, Database.perform, hcommit]
  rw [hdone]
  refine ⟨rfl, ?_⟩
  rcases Database.commit_cases hcommit with ⟨_, heq, _⟩ | ⟨_, s, k, hs, _, hstores⟩
  · cases heq
  have hsame := hv.coupled.matching _ s hblock hs
  cases Option.some.inj (hcurrent.symm.trans hsame)
  exact ⟨⟨(Database.applyAll (σ := Ledger) k signatures).signatures⟩, hstores.blocks_eq⟩

/-- **A decision to commit is carried out.** When a validator with nothing under way intends to commit,
it has the block of its status at hand, that block is staged, and its commit is issued; and a commit that
was issued stores its block when it is done, unless the engine is closed or the database stopped. -/
theorem commit_decision_executed {config : Config} {roster : Roster} {me : PeerIndex} {l : Ledger}
    {policy : BuildPolicy} {clock : WallClock} {now : Instant} {v : Node roster.size} (hl : l.Ordered)
    (hdistinct : roster.keys.toList.Nodup) (hpeers : l.peers = roster.keys.toList)
    (hkey : ∀ i, roster.size.memberAt? me = some i → l.key.publicKey = roster.keys[i])
    (hsigns : ∀ id, (CommitSignature.sign id l.key).isValid id = true)
    (hstart : Validator.start config roster me l policy clock now = .ok (.ok v))
    (run : List Happening) (hrunning : (v.after run).running = true) :
    (∀ x, (v.after run).executor.processing = false →
      (v.after run).executor.viewIntent = .ok (.commitBlock, x) →
      ∃ b s, x.current = some b ∧ x.view.own.block = some b.id ∧ x.database.staged = some s ∧
        s.block = b ∧ ∀ clock, (v.after run).executor.update clock =
          .ok (some (.commit b x.view.recorded), { x with processing := true })) ∧
    (∀ b signatures clock, (v.after run).work = some (.issued (.commit b signatures)) →
      (v.after run).executor.database.engine.closed = false →
      (v.after run).executor.database.stopped = false →
      ((v.after run).handle (.workDone clock)).2.work = some (.done (.committed b (.ok ()))) ∧
        ∃ w, ((v.after run).handle (.workDone clock)).2.core.blocks =
          (v.after run).core.blocks ++ [⟨b, w⟩]) := by
  have hv := fit_after (fit_start hl hdistinct hpeers hkey hsigns hstart) run
  exact ⟨fun x hidle hintent => update_commit hv hrunning hidle hintent,
    fun b signatures clock hwork hopen hstarted =>
      workDone_commit hv hrunning hwork hopen hstarted clock⟩

end Validator

section Plain

local instance plainDecisionSuite : CryptoSuite := plainSuite

/-- Validator 3 gets the signatures of validators 0 and 1 over its block. -/
def firstDecided : List Happening :=
  firstPrepared ++
    [heard 0 (.blockSignature (plainBlock 1).id (.sign (plainBlock 1).id (plainKey (n := quartet) 0))),
      heard 1 (.blockSignature (plainBlock 1).id (.sign (plainBlock 1).id (plainKey (n := quartet) 1)))]

def firstIssued : List Happening := firstDecided ++ [.event (.intentWanted ⟨0⟩)]

/-- Is the commit of a block issued? -/
def Validator.IsCommitting {n : ValidatorCount} (v : Node n) : Prop :=
  match v.work with
  | some (.issued (.commit _ _)) => True
  | _ => False

instance {n : ValidatorCount} (v : Node n) : Decidable v.IsCommitting := by
  unfold Validator.IsCommitting
  split <;> infer_instance

/-- Validator 3 decides to commit the block of validator 0, and stores it. -/
theorem commit_decision_executed_quartet :
    ∃ v x b, plainStart (n := quartet) 3 = .ok (.ok v) ∧
      (v.after firstDecided).executor.viewIntent = .ok (.commitBlock, x) ∧
      x.database.staged.map (·.block) = some b ∧ (v.after firstIssued).IsCommitting ∧
      ∃ b w, ((v.after firstIssued).handle (.workDone ⟨0⟩)).2.core.blocks = [⟨b, w⟩] := by
  obtain ⟨v, hstart, hdecided, hidle, hintent, hissued, hopen, hstarted, hnone, hcommitting⟩ :=
    exists_started (x := plainStart (n := quartet) 3)
      (P := fun v => (v.after firstDecided).running = true ∧
        (v.after firstDecided).executor.processing = false ∧
        ((v.after firstDecided).executor.viewIntent.map Prod.fst).toOption = some .commitBlock ∧
        (v.after firstIssued).running = true ∧
        (v.after firstIssued).executor.database.engine.closed = false ∧
        (v.after firstIssued).executor.database.stopped = false ∧
        (v.after firstIssued).core.blocks = [] ∧ (v.after firstIssued).IsCommitting) (by decide +kernel)
  have hexecuted := fun run hrunning =>
    Validator.commit_decision_executed (fun _ _ h => by cases h) (by decide +kernel) rfl
      (fun i hi => by revert i; decide +kernel) (fun id => plain_sign_valid id _) hstart run hrunning
  obtain ⟨x, hx⟩ : ∃ x, (v.after firstDecided).executor.viewIntent = .ok (.commitBlock, x) := by
    rcases hresult : (v.after firstDecided).executor.viewIntent with fault | ⟨intent, x⟩
    · rw [hresult] at hintent
      cases hintent
    · rw [hresult] at hintent
      cases hintent
      exact ⟨x, rfl⟩
  obtain ⟨b, signatures, hwork⟩ : ∃ b signatures,
      (v.after firstIssued).work = some (.issued (.commit b signatures)) := by
    unfold Validator.IsCommitting at hcommitting
    split at hcommitting
    next b signatures hwork => exact ⟨b, signatures, hwork⟩
    · exact hcommitting.elim
  obtain ⟨b', s, _, _, hs, hblock, _⟩ := (hexecuted firstDecided hdecided).1 x hidle hx
  obtain ⟨_, w, hblocks⟩ := (hexecuted firstIssued hissued).2 b signatures ⟨0⟩ hwork hopen hstarted
  exact ⟨v, x, b', hstart, hx, by rw [hs, ← hblock]; rfl, hcommitting, b, w,
    hblocks.trans (congrArg (fun blocks : List WitnessedBlock => blocks ++ [⟨b, w⟩]) hnone)⟩

end Plain

end QuorumChain
