import Mathlib.Data.Fintype.Card
import QuorumChain.Proofs.Validator.Decision
import QuorumChain.Proofs.View.Knowledge

/-! Certificates. Whatever a validator stores has the signatures of a quorum, each of a validator that is
bound to the block, if what the validator hears is the truth. -/

namespace QuorumChain

namespace Core

variable {n : ValidatorCount} [CryptoSuite] {H H' : History n} {c c' : Core n} {e : ValidatorEvent}
  {b : Block}

/-- A quorum is bound to the block. The validator itself may have become bound to it only now. -/
def Certified (H : History n) (c : Core n) (b : Block) : Prop :=
  ∃ S : Finset (Fin n.total), n.threshold ≤ S.card ∧
    ∀ j ∈ S, H.bound j b.height b.id ∨ (j = c.view.me ∧ c.Locked b.height b.id)

/-- The signature is the own one, or of a validator that is bound to the block. -/
def Attests (H : History n) (c : Core n) (b : Block) (t : CommitSignature) : Prop :=
  ∃ j : Fin n.total, c.keys[j] = t.signer ∧ (j = c.view.me ∨ H.bound j b.height b.id)

/-- What the validator knows, has collected and has stored is backed by what the others did. -/
structure Informed (H : History n) (c : Core n) : Prop where
  view : c.view.Informed H
  collected : ∀ s k, c.database.staged = some s → c.database.collector = some k →
    ∀ t ∈ k.signatures, c.Attests H s.block t
  issued : ∀ b signatures, c.work = some (.issued (.commit b signatures)) →
    ∀ t ∈ signatures, c.Attests H b t
  adding : ∀ height b, c.work = some (.issued (.add height b)) → c.Certified H b.block
  stored : ∀ b ∈ c.blocks, c.Certified H b.block

/-- An event tells the validator nothing but the truth. -/
def Vouched (H : History n) (c : Core n) : ValidatorEvent → Prop
  | .message i (.status s) => ∀ j, n.memberAt? i = some j → H.Tells j s
  | .message i (.blockSignature id _) => ∀ j, n.memberAt? i = some j → c.view.own.block = some id →
      H.bound j c.view.own.height id
  | .message i (.getBlockSignature id) => ∀ j, n.memberAt? i = some j →
      ∃ h, H.bound j h id ∧ (H.past c.view.me h ∨ H.bound c.view.me h id)
  | .message _ (.completeBlock _ b) => c.Certified H b.block
  | .committed _ _ | .signature _ _ _ => False
  | _ => True

theorem Certified.mono (h : c.Certified H b) (hg : H.Grows H') : c.Certified H' b := by
  obtain ⟨S, hcard, hall⟩ := h
  exact ⟨S, hcard, fun j hj => (hall j hj).imp_left hg.bound⟩

theorem Certified.transfer (h : c.Certified H b) (hme : c'.view.me = c.view.me)
    (hlocked : c.Locked b.height b.id → c'.Locked b.height b.id) : c'.Certified H b := by
  obtain ⟨S, hcard, hall⟩ := h
  refine ⟨S, hcard, fun j hj => (hall j hj).imp_right fun ⟨hj, hl⟩ => ⟨hj.trans hme.symm, hlocked hl⟩⟩

theorem Attests.transfer {t : CommitSignature} (h : c.Attests H b t) (hme : c'.view.me = c.view.me)
    (hkeys : c'.keys = c.keys) : c'.Attests H b t := by
  obtain ⟨j, hkey, hj⟩ := h
  refine ⟨j, ?_, hj.imp_left fun hj => hj.trans hme.symm⟩
  simp only [hkeys]
  exact hkey

theorem Informed.mono (h : c.Informed H) (hg : H.Grows H') : c.Informed H' where
  view := h.view.mono hg
  collected s k hs hk t ht := by
    obtain ⟨j, hkey, hj⟩ := h.collected s k hs hk t ht
    exact ⟨j, hkey, hj.imp_right hg.bound⟩
  issued b signatures hwork t ht := by
    obtain ⟨j, hkey, hj⟩ := h.issued b signatures hwork t ht
    exact ⟨j, hkey, hj.imp_right hg.bound⟩
  adding height b hwork := (h.adding height b hwork).mono hg
  stored b hb := (h.stored b hb).mono hg

/-- The signatures in a witness are those of different validators. -/
theorem certified_of_witness (hq : c.Equipped) {w : Witness} (hl : c.Locked b.height b.id)
    (hw : w.verify b.id c.database.engine.peers c.database.engine.threshold = .ok ())
    (hall : ∀ t ∈ w.signatures, c.Attests H b t) : c.Certified H b := by
  obtain ⟨hmany, hnodup, _⟩ := Witness.verify_eq_ok.mp hw
  refine ⟨Finset.univ.filter fun j => ∃ t ∈ w.signatures, t.signer = c.keys[j], ?_, fun j hj => ?_⟩
  · rw [hq.threshold_eq, ← List.length_map (·.signer), ← List.toFinset_card_of_nodup hnodup] at hmany
    refine Nat.le_trans hmany (Nat.le_trans (Finset.card_le_card fun key hkey => ?_)
      (Finset.card_image_le (f := fun j => c.keys[j])))
    obtain ⟨t, ht, rfl⟩ := List.mem_map.mp (List.mem_toFinset.mp hkey)
    obtain ⟨j, hkey, _⟩ := hall t ht
    exact Finset.mem_image.mpr ⟨j, Finset.mem_filter.mpr ⟨Finset.mem_univ j, t, ht, hkey.symm⟩, hkey⟩
  · obtain ⟨t, ht, hsigner⟩ := (Finset.mem_filter.mp hj).2
    obtain ⟨i, hkey, hi⟩ := hall t ht
    cases hq.keys_injective (hkey.trans hsigner)
    rcases hi with rfl | hbound
    · exact .inr ⟨rfl, hl⟩
    · exact .inl hbound

/-- The view may change if it is told the truth. -/
theorem Informed.withView (hi : c.Informed H) {view : View n} (hview : view.Informed H)
    (hme : view.me = c.view.me)
    (hlocked : ∀ {h r}, c.Locked h r → Locked { c with view } h r) : Informed H { c with view } where
  view := hview
  collected s k hs hk t ht := (hi.collected s k hs hk t ht).transfer hme rfl
  issued b signatures hwork t ht := (hi.issued b signatures hwork t ht).transfer hme rfl
  adding height b hwork := (hi.adding height b hwork).transfer hme hlocked
  stored b hb := (hi.stored b hb).transfer hme hlocked

theorem Informed.hear (hi : c.Informed H) (hc : c.Coupled) {i : Fin n.total} {id : BlockId}
    {s : CommitSignature} {database : Store} (hkey : c.keys[i] = s.signer)
    (hblock : c.view.own.block = some id) (hbound : H.bound i c.view.own.height id)
    (hvalid : c.database.verifySignature s = (true, database)) {view : View n}
    (hview : view.Informed H) (hme : view.me = c.view.me)
    (hlocked : ∀ {h r}, c.Locked h r → Locked { c with database, view } h r) :
    Informed H { c with database, view } := by
  obtain ⟨hfalse, _⟩ | ⟨_, k, k', hk, happly, rfl⟩ := Database.verifySignature_cases hvalid
  · cases hfalse
  obtain ⟨_, hfrom, _⟩ := SignatureCollector.apply_signatures happly
  refine ⟨hview, fun s₀ k₀ hs₀ hk₀ t ht => ?_,
    fun b signatures hwork t ht => (hi.issued b signatures hwork t ht).transfer hme rfl,
    fun height b hwork => (hi.adding height b hwork).transfer hme hlocked,
    fun b hb => (hi.stored b hb).transfer hme hlocked⟩
  cases hk₀
  rcases hfrom t ht with hold | rfl
  · exact (hi.collected s₀ k hs₀ hk t hold).transfer hme rfl
  · obtain ⟨rfl, hheight⟩ := hc.staged_fits hblock hs₀
    exact ⟨i, hkey, .inr (hheight ▸ hbound)⟩

theorem Informed.issue (hi : c.Informed H) (hc : c.Coupled) (ha : c.Armed) (he : c.Vouched H e)
    {task : Task} (htask : Calls c e task) :
    Informed H { c with processing := true, work := some (.issued task) } := by
  refine ⟨hi.view, hi.collected, fun b signatures hwork t ht => ?_, fun height b hwork => ?_, hi.stored⟩
  · cases htask with
    | load _ => cases hwork
    | add _ _ _ => cases hwork
    | build _ => cases hwork
    | commit hintent hcurrent hblock =>
        cases hwork
        obtain ⟨i, hslot⟩ := View.mem_recorded.mp ht
        refine ⟨i, (ha.genuine i t hslot).symm, ?_⟩
        by_cases hme : i = c.view.me
        · exact .inl hme
        · obtain ⟨r, hr, hbound⟩ := hi.view.signatures i t hslot hme
          obtain ⟨rfl, hheight⟩ := hc.current_fits hr hcurrent
          exact .inr (hheight ▸ hbound)
  · cases htask with
    | load _ => cases hwork
    | add hevent _ _ =>
        cases hwork
        rcases hevent with ⟨sender, rfl⟩ | rfl
        · exact he
        · exact he.elim
    | build _ => cases hwork
    | commit _ _ _ => cases hwork

/-- The own signature attests a block that the validator has staged. -/
theorem Equipped.attests (hq : c.Equipped) (H : History n) (b : Block) {id : BlockId} :
    c.Attests H b (.sign id c.database.engine.key) :=
  ⟨c.view.me, hq.key_eq.symm, .inl rfl⟩

theorem Informed.stage (hi : c.Informed H) (hq : c.Equipped) {result : Completion LedgerError}
    {database : Store} {s : StagedBlock} (hd : Database.Stages c.database database s) :
    Informed H { c with database, work := some (.done result) } := by
  have hblocks : database.engine.blocks = c.blocks := hd.engine.blocks_eq
  have hlocked : ∀ {h r}, c.Locked h r →
      Locked { c with database, work := some (.done result) } h r := by
    intro h r hl
    unfold Locked blocks at hl ⊢
    rw [hblocks]
    exact hl
  refine ⟨hi.view, fun s' k hs hk t ht => ?_, nofun, nofun, fun b hb => ?_⟩
  · cases Option.some.inj (hd.staged.symm.trans hs)
    cases Option.some.inj (hd.collector.symm.trans hk)
    rw [List.mem_singleton.mp ht, hd.engine.settings_eq.1]
    exact (hq.attests H s.block).transfer rfl rfl
  · have hb : b ∈ database.engine.blocks := hb
    rw [hblocks] at hb
    exact (hi.stored b hb).transfer rfl hlocked

theorem Informed.store (hi : c.Informed H) {result : Completion LedgerError} {database : Store}
    {b : WitnessedBlock} (hd : Database.Stores c.database database b) (hb : c.Certified H b.block) :
    Informed H { c with database, work := some (.done result) } := by
  have hblocks : database.engine.blocks = c.blocks ++ [b] := hd.blocks_eq
  have hlocked : ∀ {h r}, c.Locked h r →
      Locked { c with database, work := some (.done result) } h r := by
    intro h r hl
    refine hl.imp_right fun ⟨w, hw, hid⟩ => ⟨w, ?_, hid⟩
    show database.engine.blocks[h.number]? = some w
    rw [hblocks, List.getElem?_append_left (List.getElem?_eq_some_iff.mp hw).1]
    exact hw
  refine ⟨hi.view, fun s k hs => (nomatch hd.staged.symm.trans hs), nofun, nofun, fun b' hb' => ?_⟩
  have hb' : b' ∈ database.engine.blocks := hb'
  rw [hblocks, List.mem_append, List.mem_singleton] at hb'
  rcases hb' with hold | rfl
  · exact (hi.stored b' hold).transfer rfl hlocked
  · exact hb.transfer rfl hlocked

theorem Informed.fail (hi : c.Informed H) {work : Option (Work LedgerError)} {running : Bool}
    {database : Store} (hwork : ∀ task, work ≠ some (.issued task))
    (hd : Database.Fails c.database database) : Informed H { c with database, work, running } := by
  have hlocked : ∀ {h r}, c.Locked h r → Locked { c with database, work, running } h r := by
    intro h r hl
    unfold Locked blocks at hl ⊢
    rw [hd.blocks_eq]
    exact hl
  refine ⟨hi.view, fun s k hs hk t ht => ?_, fun b signatures h => absurd h (hwork _),
    fun height b h => absurd h (hwork _), fun b hb => ?_⟩
  · cases hd with
    | kept => exact (hi.collected s k hs hk t ht).transfer rfl rfl
    | emptied _ hnone _ _ => exact nomatch hnone.symm.trans hs
  · have hb : b ∈ database.engine.blocks := hb
    rw [hd.blocks_eq] at hb
    exact (hi.stored b hb).transfer rfl hlocked

theorem Informed.run (hi : c.Informed H) (hc : c.Fit) (hrunning : c.running = true) {task : Task}
    {result : Completion LedgerError} {database : Store} (hwork : c.work = some (.issued task))
    (h : c.database.Performs task result database) :
    Informed H { c with database, work := some (.done result) } := by
  have hadmits := hc.coupled.admits hrunning
  rw [hwork] at hadmits
  cases h with
  | loaded hd => exact hi.stage hc.equipped hd
  | built hd => exact hi.stage hc.equipped hd
  | added hd => exact hi.store hd (hi.adding _ _ hwork)
  | @committed b signatures s k _ hs hk hd =>
      obtain ⟨_, hprepared, hblock, hcurrent⟩ := hadmits
      have hsame := hc.coupled.matching _ s hblock hs
      cases Option.some.inj (hcurrent.symm.trans hsame)
      have hheight := (hc.coupled.current_fits hblock hcurrent).2
      obtain ⟨_, hk', hfits⟩ := hc.coupled.sound.collects s hs
      cases Option.some.inj (hk.symm.trans hk')
      obtain ⟨_, _, hfrom⟩ := SignatureCollector.applyAll_spec signatures hfits
      have hverify := (Ledger.checkCommit_eq_ok.mp hd.fit).1
      refine hi.store hd (certified_of_witness hc.equipped (.inl ⟨hheight.symm, hprepared, hblock⟩)
        hverify fun t ht => ?_)
      rcases hfrom t ht with hold | hnew
      · exact hi.collected s k hs hk t hold
      · exact hi.issued _ _ hwork t hnew
  | failed _ hd => exact hi.fail nofun hd

theorem Informed.take (hi : c.Informed H) {result : Completion LedgerError} {view : View n}
    {current : Option Block} (h : Takes c.view c.current result view current)
    (hlocked : ∀ {h r}, c.Locked h r →
      Locked { c with view, current, processing := false, work := none } h r) :
    Informed H { c with view, current, processing := false, work := none } := by
  have hview : view.Informed H ∧ view.me = c.view.me := by
    cases h with
    | failed _ => exact ⟨hi.view, rfl⟩
    | loaded hview => exact ⟨hi.view.handle (e := .received _ _) trivial hview, View.handle_me hview⟩
    | built hview => exact ⟨hi.view.handle (e := .built _ _) trivial hview, View.handle_me hview⟩
    | added _ hview => exact ⟨hi.view.handle (e := .advanced _) trivial hview, View.handle_me hview⟩
    | committed hview => exact ⟨hi.view.handle (e := .committed _) trivial hview, View.handle_me hview⟩
  obtain ⟨hview, hme⟩ := hview
  exact ⟨hview, fun s k hs hk t ht => (hi.collected s k hs hk t ht).transfer hme rfl, nofun, nofun,
    fun b hb => (hi.stored b hb).transfer hme hlocked⟩

/-- **A validator that hears the truth stores nothing but what a quorum is bound to.** -/
theorem Informed.step (hi : c.Informed H) (hc : c.Fit) (hrunning : c.running = true)
    (he : c.Vouched H e) (hs : Step e c c') : c'.Informed H := by
  have hlocked : ∀ {h r}, c.Locked h r → c'.Locked h r := fun hl =>
    hc.coupled.locked_step hrunning hs hl
  cases hs with
  | view hve hview =>
      refine hi.withView (hi.view.handle ?_ hview) (View.handle_me hview) hlocked
      cases hve with
      | refresh => trivial
      | revolt => trivial
      | status => exact he
  | jump hidle hbest hge _ =>
      exact absurd hge (hc.coupled.not_below_best (hc.coupled.idle hrunning hidle).2 hbest)
  | @hear sender i id s database outcome view hevent hsender hkey hblock hvalid hview =>
      rcases hevent with rfl | rfl
      · have hinformed := hi.view.handle (e := .signature sender id s) he hview
        exact hi.hear hc.coupled hkey hblock (he i hsender hblock) hvalid hinformed
          (View.handle_me hview) hlocked
      · exact he.elim
  | issue _ htask => exact hi.issue hc.coupled (hc.armed hrunning) he htask
  | run _ hwork h => exact hi.run hc hrunning hwork (Database.perform_cases h)
  | take _ _ htakes => exact hi.take htakes hlocked

/-- What an event tells stays the truth while the validator acts on it. -/
theorem Vouched.step (he : c.Vouched H e) (hc : c.Coupled) (hrunning : c.running = true)
    (hs : Step e c c') : c'.Vouched H e := by
  have hkept : e ≠ .resultTaken → c.view.own.Persists c'.view.own := fun hne => by
    rcases hc.own_step hrunning hs with hp | ⟨htaken, _⟩
    · exact hp
    · exact absurd htaken hne
  cases e with
  | message i m =>
      cases m with
      | blockSignature id t =>
          intro j hj hid
          have hp := hkept nofun
          rw [hp.1]
          exact he j hj (hp.block_eq hid)
      | completeBlock height b =>
          exact Certified.transfer he (SameSettings.step hs).me_eq fun hl =>
            hc.locked_step hrunning hs hl
      | status s => exact he
      | getUnfinishedBlock id => trivial
      | unfinishedBlock b => trivial
      | getBlockAtHeight height => trivial
      | getBlockSignature id =>
          intro j hj
          rw [(SameSettings.step hs).me_eq]
          exact he j hj
  | committed height b => exact he.elim
  | signature i id t => exact he.elim
  | tick now clock choice => trivial
  | proposal b => trivial
  | revolt => trivial
  | intentWanted clock => trivial
  | workDone clock => trivial
  | resultTaken => trivial
  | wanted height => trivial
  | shutdown clock => trivial

theorem informed_path (hc : c.Fit) (hi : c.Informed H) (he : c.Vouched H e)
    (hrunning : c.running = true) (hpath : Path e c c') :
    c'.Fit ∧ c'.Informed H ∧ c'.Vouched H e ∧ c'.running = true := by
  induction hpath with
  | refl => exact ⟨hc, hi, he, hrunning⟩
  | tail _ hs ih =>
      obtain ⟨hc, hi, he, hrunning⟩ := ih
      exact ⟨hc.step hrunning hs, hi.step hc hrunning he hs, he.step hc.coupled hrunning hs,
        hs.running_eq.trans hrunning⟩

theorem Informed.halt (hi : c.Informed H) : c.halt.Informed H :=
  hi.fail nofun (Database.stop_fails c.database)

end Core

namespace Validator

open QuorumChain.Core

variable {n : ValidatorCount} [CryptoSuite] {H : History n} {v : Node n} {e : ValidatorEvent}

theorem informed_handle (hv : v.core.Fit) (hi : v.core.Informed H) (he : v.core.Vouched H e) :
    (v.handle e).2.core.Fit ∧ (v.handle e).2.core.Informed H := by
  have hend := handle_induction (e := e) (P := fun c => c.Fit ∧ c.Informed H ∧
      (c.running = true → c.Vouched H e))
    (fun ⟨hc, hi, he⟩ hrunning hs => ⟨hc.step hrunning hs, hi.step hc hrunning (he hrunning) hs,
      fun _ => (he hrunning).step hc.coupled hrunning hs⟩)
    (fun ⟨hc, hi, _⟩ => ⟨hc.halt, hi.halt, nofun⟩) ⟨hv, hi, fun _ => he⟩
  exact ⟨hend.1, hend.2.1⟩

/-- Transactions that are submitted change nothing of it. -/
theorem informed_submit (hi : v.core.Informed H) (tx : Transaction) :
    (v.mapEngine (Ledger.submit tx)).core.Informed H :=
  ⟨hi.view, hi.collected, hi.issued, hi.adding, hi.stored⟩

section Start

variable {config : Config} {roster : Roster} {me : PeerIndex} {l : Ledger} {policy : BuildPolicy}
  {clock : WallClock} {now : Instant} {v : Node roster.size}

theorem informed_start (hempty : l.blocks = [])
    (h : Validator.start config roster me l policy clock now = .ok (.ok v)) (H : History roster.size) :
    v.core.Informed H := by
  have hl : l.Ordered := fun k b hb => by
    rw [hempty] at hb
    cases hb
  obtain ⟨_, _, view, _, hview, hcore⟩ := start_core hl h
  rw [hcore]
  refine ⟨.start H hview, nofun, nofun, nofun, fun b hb => ?_⟩
  have hb : b ∈ l.blocks := hb
  rw [hempty] at hb
  cases hb

end Start

end Validator

end QuorumChain
