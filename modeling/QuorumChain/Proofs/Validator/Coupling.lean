import QuorumChain.Proofs.Validator.Path
import QuorumChain.Proofs.View.Coherence
import QuorumChain.Proofs.View.Continuity

/-! How the parts of a validator fit together while work is issued, done and taken and while anything
else happens in between. The height of the own status is the number of stored blocks, except between
storing a block and taking the result of that; and the block at hand is that of the own status. -/

namespace QuorumChain

namespace Core

/-- The view events of a validator's own neither move it nor give it a block. -/
theorem Prompts.isQuiet {e : ValidatorEvent} {ve : ViewEvent} (h : Prompts e ve) : ve.IsQuiet := by
  cases h <;> trivial

variable {n : ValidatorCount} [CryptoSuite] {c c' : Core n} {e : ValidatorEvent}

/-- As many blocks are stored as the own status says. -/
def OnLevel (c : Core n) : Prop := c.blocks.length = c.view.own.height.number

/-- One more block is stored than the own status says. -/
def Ahead (c : Core n) : Prop := c.blocks.length = c.view.own.height.number + 1

/-- What is true while some work, or none, is under way. -/
def Admits (c : Core n) : Option (Work LedgerError) → Prop
  | none => c.OnLevel
  | some (.issued (.load _)) => c.OnLevel ∧ c.view.own.phase = .waitBlock
  | some (.issued .build) => c.OnLevel ∧ c.view.own.phase = .waitBlock
  | some (.issued (.add height _)) =>
      c.OnLevel ∧ c.view.own.phase = .waitBlock ∧ height = c.view.own.height
  | some (.issued (.commit b _)) =>
      c.OnLevel ∧ c.view.own.phase = .prepared ∧ c.view.own.block = some b.id ∧ c.current = some b
  | some (.done (.loaded b (.ok _))) | some (.done (.built (.ok (b, _)))) =>
      c.OnLevel ∧ c.view.own.phase = .waitBlock ∧ b.height = c.view.own.height ∧
        ∃ s, c.database.staged = some s ∧ s.block = b
  | some (.done (.added height (.ok ()))) =>
      c.Ahead ∧ c.view.own.phase = .waitBlock ∧ height = c.view.own.height
  | some (.done (.committed b (.ok ()))) =>
      c.Ahead ∧ c.view.own.phase = .prepared ∧ c.view.own.block = some b.id
  | some (.done _) => c.OnLevel

/-- **What is true of a validator in every state.** -/
structure Coupled (c : Core n) : Prop where
  coherent : c.view.Coherent
  sound : c.database.Sound
  heights : c.database.engine.Ordered
  level : c.OnLevel ∨ c.Ahead
  agrees : ∀ b, c.blocks[c.view.own.height.number]? = some b →
    c.view.own.phase = .waitBlock ∨ c.view.own.phase = .prepared ∧ c.view.own.block = some b.id
  keeps : ∀ r, c.view.own.block = some r →
    ∃ b, c.current = some b ∧ b.id = r ∧ b.height = c.view.own.height
  matching : ∀ r s, c.view.own.block = some r → c.database.staged = some s → c.current = some s.block
  busy : c.running = true → c.processing = c.work.isSome
  admits : c.running = true → c.Admits c.work

/-- Only the parts that are named matter. -/
theorem Admits.transfer {work : Option (Work LedgerError)} (h : c.Admits work)
    (hblocks : c'.blocks = c.blocks) (hview : c'.view = c.view) (hcurrent : c'.current = c.current)
    (hstaged : c'.database.staged = c.database.staged) : c'.Admits work := by
  unfold Admits OnLevel Ahead at h ⊢
  rw [hblocks, hview, hcurrent, hstaged]
  exact h

theorem Admits.persists {view : View n} {work : Option (Work LedgerError)} (h : c.Admits work)
    (hp : c.view.own.Persists view.own) : Admits { c with view } work := by
  have hlevel : c.OnLevel → OnLevel { c with view } := fun hl => hl.trans (by rw [hp.1])
  have hahead : c.Ahead → Ahead { c with view } := fun hl => hl.trans (by rw [hp.1])
  have hprepared : ∀ {id}, c.view.own.phase = .prepared → c.view.own.block = some id →
      view.own.phase = .prepared ∧ view.own.block = some id := fun hphase hb =>
    ⟨(hp.prepared hphase).1, (hp.prepared hphase).2.trans hb⟩
  match work, h with
  | none, h => exact hlevel h
  | some (.issued (.load _)), h => exact ⟨hlevel h.1, hp.waiting h.2⟩
  | some (.issued .build), h => exact ⟨hlevel h.1, hp.waiting h.2⟩
  | some (.issued (.add _ _)), ⟨hl, hw, hh⟩ => exact ⟨hlevel hl, hp.waiting hw, hh.trans hp.1.symm⟩
  | some (.issued (.commit _ _)), ⟨hl, hphase, hb, hcurrent⟩ =>
      obtain ⟨hphase', hb'⟩ := hprepared hphase hb
      exact ⟨hlevel hl, hphase', hb', hcurrent⟩
  | some (.done (.loaded _ (.ok _))), ⟨hl, hw, hh, hs⟩ =>
      exact ⟨hlevel hl, hp.waiting hw, hh.trans hp.1.symm, hs⟩
  | some (.done (.built (.ok (_, _)))), ⟨hl, hw, hh, hs⟩ =>
      exact ⟨hlevel hl, hp.waiting hw, hh.trans hp.1.symm, hs⟩
  | some (.done (.added _ (.ok ()))), ⟨hl, hw, hh⟩ => exact ⟨hahead hl, hp.waiting hw, hh.trans hp.1.symm⟩
  | some (.done (.committed _ (.ok ()))), ⟨hl, hphase, hb⟩ => exact ⟨hahead hl, hprepared hphase hb⟩
  | some (.done (.loaded _ (.error _))), h => exact hlevel h
  | some (.done (.built (.error _))), h => exact hlevel h
  | some (.done (.added _ (.error _))), h => exact hlevel h
  | some (.done (.committed _ (.error _))), h => exact hlevel h

theorem Admits.issued {task : Task} (h : c.Admits (some (.issued task))) : c.OnLevel := by
  cases task with
  | load b => exact h.1
  | add height b => exact h.1
  | build => exact h.1
  | commit b signatures => exact h.1

theorem admits_failure {result : Completion LedgerError} (hresult : result.IsFailure) :
    c.Admits (some (.done result)) ↔ c.OnLevel := by
  cases result with
  | loaded b r =>
      obtain ⟨e, rfl⟩ := hresult
      exact Iff.rfl
  | added height r =>
      obtain ⟨e, rfl⟩ := hresult
      exact Iff.rfl
  | built r =>
      obtain ⟨e, rfl⟩ := hresult
      exact Iff.rfl
  | committed b r =>
      obtain ⟨e, rfl⟩ := hresult
      exact Iff.rfl

namespace Coupled

/-- The block at hand is that of the own status. -/
theorem current_fits (hc : c.Coupled) {r : BlockId} {b : Block} (hr : c.view.own.block = some r)
    (hcurrent : c.current = some b) : b.id = r ∧ b.height = c.view.own.height := by
  obtain ⟨b', hcurrent', hid, hheight⟩ := hc.keeps r hr
  cases Option.some.inj (hcurrent.symm.trans hcurrent')
  exact ⟨hid, hheight⟩

/-- What is staged while the validator has a block is that block. -/
theorem staged_fits (hc : c.Coupled) {r : BlockId} {s : StagedBlock} (hr : c.view.own.block = some r)
    (hs : c.database.staged = some s) : s.block.id = r ∧ s.block.height = c.view.own.height :=
  hc.current_fits hr (hc.matching r s hr hs)

/-- The view may change if the own status keeps to its height and block. -/
theorem withView (hc : c.Coupled) {view : View n} (hcoherent : view.Coherent)
    (hp : c.view.own.Persists view.own) : Coupled { c with view } where
  coherent := hcoherent
  sound := hc.sound
  heights := hc.heights
  level := hc.level.imp (fun h => h.trans (by rw [hp.1])) (fun h => h.trans (by rw [hp.1]))
  agrees b hb := by
    have hb : c.blocks[c.view.own.height.number]? = some b := hp.1 ▸ hb
    rcases hc.agrees b hb with hw | ⟨hphase, hid⟩
    · exact .inl (hp.waiting hw)
    · exact .inr ⟨(hp.prepared hphase).1, (hp.prepared hphase).2.trans hid⟩
  keeps r hr := by
    obtain ⟨b, hcurrent, hid, hheight⟩ := hc.keeps r (hp.block_eq hr)
    exact ⟨b, hcurrent, hid, hheight.trans hp.1.symm⟩
  matching r s hr hs := hc.matching r s (hp.block_eq hr) hs
  busy := hc.busy
  admits hrunning := (hc.admits hrunning).persists hp

/-- Nothing is known to the view that is not stored, so it does not have to jump. -/
theorem not_below_best (hc : c.Coupled) (hlevel : c.OnLevel) {best : Height}
    (hbest : c.database.engine.bestHeight = some best) : ¬ c.view.own.height ≤ best := by
  intro hle
  have hlength := hc.heights.number_best hbest
  have hlevel : c.database.engine.blocks.length = c.view.own.height.number := hlevel
  have hle : c.view.own.height.number ≤ best.number := hle
  omega

theorem idle (hc : c.Coupled) (hrunning : c.running = true) (hidle : c.processing = false) :
    c.work = none ∧ c.OnLevel := by
  have hbusy := hc.busy hrunning
  have hadmits := hc.admits hrunning
  cases hwork : c.work with
  | none =>
      rw [hwork] at hadmits
      exact ⟨rfl, hadmits⟩
  | some work =>
      rw [hwork, hidle] at hbusy
      cases hbusy

theorem issue (hc : c.Coupled) (hrunning : c.running = true) (hidle : c.processing = false)
    {task : Task} (htask : Calls c e task) :
    Coupled { c with processing := true, work := some (.issued task) } := by
  have hlevel := (hc.idle hrunning hidle).2
  have hfits := hc.coherent.intent_fits
  refine ⟨hc.coherent, hc.sound, hc.heights, hc.level, hc.agrees, hc.keeps, hc.matching, fun _ => rfl,
    fun _ => ?_⟩
  cases htask with
  | load hintent =>
      rw [hintent] at hfits
      exact ⟨hlevel, hfits⟩
  | add he hintent hheight =>
      rw [hintent] at hfits
      exact ⟨hlevel, hfits⟩
  | build hintent =>
      rw [hintent] at hfits
      exact ⟨hlevel, hfits⟩
  | commit hintent hcurrent hblock =>
      rw [hintent] at hfits
      exact ⟨hlevel, hfits.1, hblock, hcurrent⟩

/-- The database may change if the chain does not and nothing else gets staged. -/
theorem withDatabase (hc : c.Coupled) {database : Store} {work : Option (Work LedgerError)}
    {running : Bool} (hsound : database.Sound) (hblocks : database.engine.blocks = c.blocks)
    (hstaged : ∀ s, database.staged = some s → c.database.staged = some s ∨ c.view.own.block = none)
    (hbusy : running = true → c.processing = work.isSome)
    (hadmits : running = true → Admits { c with database, work, running } work) :
    Coupled { c with database, work, running } where
  coherent := hc.coherent
  sound := hsound
  heights k b hb := by
    have hb : database.engine.blocks[k]? = some b := hb
    rw [hblocks] at hb
    exact hc.heights k b hb
  level := by
    rw [OnLevel, Ahead, blocks, hblocks]
    exact hc.level
  agrees b hb := hc.agrees b (hblocks ▸ hb)
  keeps := hc.keeps
  matching r s hr hs := by
    rcases hstaged s hs with hs | hnone
    · exact hc.matching r s hr hs
    · exact nomatch hnone.symm.trans hr
  busy := hbusy
  admits := hadmits

/-- A block that extends the chain has the own height. -/
theorem height_eq (hlevel : c.OnLevel) {b : Block}
    (hfit : c.database.engine.checkExtends b = .ok ()) : b.height = c.view.own.height := by
  have hnext : c.blocks.length < 2 ^ 64 := hlevel ▸ c.view.own.height.number_lt
  rw [(Ledger.checkExtends_eq_ok.mp hfit).1]
  exact Counter.ext ((Ledger.number_nextHeight hnext).trans hlevel)

theorem heights_append (hc : c.Coupled) (hlevel : c.OnLevel) {b : WitnessedBlock}
    (hfit : c.database.engine.checkExtends b.block = .ok ()) {k : Nat} {b' : WitnessedBlock}
    (hk : (c.blocks ++ [b])[k]? = some b') : b'.block.height.number = k := by
  rcases Ledger.stored_cases hk with ⟨_, hk⟩ | ⟨rfl, rfl⟩
  · exact hc.heights k b' hk
  · rw [show b'.block.height = c.view.own.height from height_eq hlevel hfit, hlevel]

/-- A block is stored at the own height, which the validator waits for or has decided on. -/
theorem store (hc : c.Coupled) (hlevel : c.OnLevel) {database : Store} {b : WitnessedBlock}
    (h : Database.Stores c.database database b)
    (hown : c.view.own.phase = .waitBlock ∨
      c.view.own.phase = .prepared ∧ c.view.own.block = some b.id)
    {work : Option (Work LedgerError)} (hbusy : c.running = true → c.processing = work.isSome)
    (hadmits : c.running = true → Ahead { c with database, work } →
      Admits { c with database, work } work) :
    Coupled { c with database, work } := by
  have hblocks : database.engine.blocks = c.blocks ++ [b] := h.blocks_eq
  have hahead : Ahead { c with database, work } := by
    rw [Ahead, blocks, hblocks, List.length_append]
    exact congrArg (· + 1) hlevel
  refine ⟨hc.coherent, .stores h, fun k b' hb' => ?_, .inr hahead, fun b' hb' => ?_, hc.keeps,
    fun r s _ hs => (nomatch h.staged.symm.trans hs), hbusy, fun hrunning => hadmits hrunning hahead⟩
  · exact hc.heights_append hlevel (Ledger.checkCommit_eq_ok.mp h.fit).2 (hblocks ▸ hb')
  · have hlast : (c.blocks ++ [b])[c.blocks.length]? = some b' := by
      rw [← hblocks, show c.blocks.length = c.view.own.height.number from hlevel]
      exact hb'
    rw [List.getElem?_concat_length] at hlast
    cases hlast
    exact hown

theorem run (hc : c.Coupled) (hrunning : c.running = true) {task : Task}
    {result : Completion LedgerError} {database : Store} (hwork : c.work = some (.issued task))
    (h : c.database.Performs task result database) :
    Coupled { c with database, work := some (.done result) } := by
  have hadmits := hc.admits hrunning
  have hbusy := hc.busy hrunning
  rw [hwork] at hadmits hbusy
  cases h with
  | loaded hd =>
      obtain ⟨hlevel, hwait⟩ := hadmits
      have hblocks : database.engine.blocks = c.blocks := hd.engine.blocks_eq
      refine hc.withDatabase (.stages hd) hblocks (fun s _ => .inr (hc.coherent.waits_iff.mp hwait))
        (fun _ => hbusy) fun _ => ⟨?_, hwait, height_eq hlevel hd.extends_chain, _, hd.staged, rfl⟩
      exact (congrArg List.length hblocks).trans hlevel
  | built hd =>
      obtain ⟨hlevel, hwait⟩ := hadmits
      have hblocks : database.engine.blocks = c.blocks := hd.engine.blocks_eq
      refine hc.withDatabase (.stages hd) hblocks (fun s _ => .inr (hc.coherent.waits_iff.mp hwait))
        (fun _ => hbusy) fun _ => ⟨?_, hwait, height_eq hlevel hd.extends_chain, _, hd.staged, rfl⟩
      exact (congrArg List.length hblocks).trans hlevel
  | added hd =>
      obtain ⟨hlevel, hwait, hheight⟩ := hadmits
      exact hc.store hlevel hd (.inl hwait) (fun _ => hbusy) fun _ hahead => ⟨hahead, hwait, hheight⟩
  | committed hs _ hd =>
      obtain ⟨hlevel, hprepared, hblock, hcurrent⟩ := hadmits
      have hsame := hc.matching _ _ hblock hs
      cases Option.some.inj (hcurrent.symm.trans hsame)
      exact hc.store hlevel hd (.inr ⟨hprepared, hblock⟩) (fun _ => hbusy)
        fun _ hahead => ⟨hahead, hprepared, hblock⟩
  | failed hresult hd =>
      have hlevel := hadmits.issued
      refine hc.withDatabase (hc.sound.fails hd) hd.blocks_eq (fun s hs => .inl (hd.staged_eq hs))
        (fun _ => hbusy) fun _ => (admits_failure hresult).mpr ?_
      exact (congrArg List.length hd.blocks_eq).trans hlevel

/-- A block that was loaded or built becomes the one at hand, unless it is not wanted any more. -/
theorem takeSigned (hc : c.Coupled) {b : Block} {own : CommitSignature} {ve : ViewEvent}
    {outcome : Outcome} {view : View n}
    (hadmits : c.OnLevel ∧ c.view.own.phase = .waitBlock ∧ b.height = c.view.own.height ∧
      ∃ s, c.database.staged = some s ∧ s.block = b)
    (hve : ve = .received b.id own ∨ ve = .built b.id own)
    (hview : c.view.handle ve = .ok (outcome, view)) :
    Coupled { c with
      view
      current := if outcome = .accepted then some b else c.current
      processing := false
      work := none } := by
  obtain ⟨hlevel, hwait, hheight, s, hs, rfl⟩ := hadmits
  have hcoherent := hc.coherent.handle hview
  rcases View.handle_signed hve hview with ⟨hrefused, _, hown, _⟩ | ⟨rfl, serial, hrec⟩
  · rw [if_neg hrefused]
    have hkept := hc.withView hcoherent (hown ▸ .refl _)
    exact ⟨hkept.coherent, hkept.sound, hkept.heights, hkept.level, hkept.agrees, hkept.keeps,
      hkept.matching, fun _ => rfl, fun _ => hlevel.trans (by rw [hown])⟩
  · obtain ⟨_, hh, hblock⟩ := View.recompute_holding hrec
    rw [if_pos rfl]
    have hlevel' : c.blocks.length = view.own.height.number := hlevel.trans (by rw [hh])
    refine ⟨hcoherent, hc.sound, hc.heights, .inl hlevel', fun b' hb' => ?_, fun r hr => ?_,
      fun r t _ ht => ?_, fun _ => rfl, fun _ => hlevel'⟩
    · have hb' : c.blocks[view.own.height.number]? = some b' := hb'
      rw [← hlevel', List.getElem?_eq_none (Nat.le_refl _)] at hb'
      cases hb'
    · exact ⟨s.block, rfl, (hblock r hr).symm, hheight.trans hh.symm⟩
    · rw [Option.some.inj (hs.symm.trans ht)]

/-- A validator that has stored a block starts on the next height. -/
theorem takeStored (hc : c.Coupled) (hahead : c.Ahead) {view : View n} {current : Option Block}
    (hcoherent : view.Coherent) (hheight : view.own.height.number = c.view.own.height.number + 1)
    (hwait : view.own.phase = .waitBlock) (hnone : view.own.block = none) :
    Coupled { c with view, current, processing := false, work := none } := by
  have hlevel : c.blocks.length = view.own.height.number := hahead.trans hheight.symm
  exact ⟨hcoherent, hc.sound, hc.heights, .inl hlevel, fun _ _ => .inl hwait,
    fun r hr => (nomatch hnone.symm.trans hr), fun r s hr _ => (nomatch hnone.symm.trans hr),
    fun _ => rfl, fun _ => hlevel⟩

theorem take (hc : c.Coupled) (hrunning : c.running = true) {result : Completion LedgerError}
    {view : View n} {current : Option Block} (hwork : c.work = some (.done result))
    (h : Takes c.view c.current result view current) :
    Coupled { c with view, current, processing := false, work := none } := by
  have hadmits := hc.admits hrunning
  rw [hwork] at hadmits
  cases h with
  | failed hresult =>
      have hlevel := (admits_failure hresult).mp hadmits
      exact ⟨hc.coherent, hc.sound, hc.heights, hc.level, hc.agrees, hc.keeps, hc.matching,
        fun _ => rfl, fun _ => hlevel⟩
  | loaded hview => exact hc.takeSigned hadmits (.inl rfl) hview
  | built hview => exact hc.takeSigned hadmits (.inr rfl) hview
  | added hnext hview =>
      obtain ⟨hahead, _, rfl⟩ := hadmits
      obtain ⟨rfl, _, hheight, hwait, hnone⟩ :=
        View.handle_advanced (Counter.next_eq_some.mpr hnext) hview
      exact hc.takeStored hahead (hc.coherent.handle hview) (hheight ▸ hnext) hwait hnone
  | committed hview =>
      obtain ⟨hahead, _, hblock⟩ := hadmits
      obtain ⟨_, _, hheight, hwait, hnone⟩ := View.handle_committed hblock hview
      exact hc.takeStored hahead (hc.coherent.handle hview) hheight hwait hnone

theorem hear (hc : c.Coupled) {s : CommitSignature} {database : Store} {valid : Bool}
    (h : c.database.verifySignature s = (valid, database)) : Coupled { c with database } := by
  rcases Database.verifySignature_cases h with ⟨_, rfl⟩ | ⟨_, collector, collector', hcollector, happly, rfl⟩
  · exact hc
  · refine hc.withDatabase ?_ rfl (fun s hs => .inl hs) hc.busy fun hrunning => hc.admits hrunning
    exact hc.sound.withCollector hcollector happly

/-- A validator stays coupled when it stops. -/
theorem halt (hc : c.Coupled) : c.halt.Coupled := by
  have hfails := Database.stop_fails c.database
  refine hc.withDatabase (hc.sound.fails hfails) hfails.blocks_eq (fun s hs => .inl ?_) nofun nofun
  exact hfails.staged_eq hs

/-- **Every step keeps a validator coupled.** -/
theorem step (hc : c.Coupled) (hrunning : c.running = true) (h : Step e c c') : c'.Coupled := by
  cases h with
  | view hve hview =>
      exact hc.withView (hc.coherent.handle hview) (View.handle_quiet hve.isQuiet hview).2
  | jump hidle hbest hge hview => exact absurd hge (hc.not_below_best (hc.idle hrunning hidle).2 hbest)
  | hear he hsender hkey hblock hvalid hview =>
      have hheard := hc.hear hvalid
      have hp := (View.handle_quiet (e := .signature _ _ _) trivial hview).2
      exact hheard.withView (hheard.coherent.handle hview) hp
  | issue hidle htask => exact hc.issue hrunning hidle htask
  | run he hwork hd => exact hc.run hrunning hwork (Database.perform_cases hd)
  | take he hwork htakes => exact hc.take hrunning hwork htakes

end Coupled

theorem Coupled.path (hc : c.Coupled) (hrunning : c.running = true) (h : Path e c c') :
    c'.Coupled ∧ c'.running = true := by
  induction h with
  | refl => exact ⟨hc, hrunning⟩
  | tail _ hstep ih => exact ⟨ih.1.step ih.2 hstep, hstep.running_eq.trans ih.2⟩

end Core

namespace Validator

open QuorumChain.Core

variable {n : ValidatorCount} [CryptoSuite] {v : Node n}

/-- There is never anything to jump over, so a tick acts on the intent of the validator as it is. -/
theorem fastForward_eq (h : v.core.Coupled) (hidle : v.executor.processing = false → v.core.OnLevel) :
    v.fastForward = .ok v := by
  unfold fastForward
  split
  · rfl
  next hbusy =>
    have hlevel := hidle (Bool.eq_false_iff.mpr hbusy)
    split
    next best hbest =>
      have hlt : best < v.own.height := Nat.lt_of_not_le (h.not_below_best hlevel hbest)
      rw [if_pos hlt]
    · rfl

section Start

variable {config : Config} {roster : Roster} {me : PeerIndex} {l : Ledger} {policy : BuildPolicy}
  {clock : WallClock} {now : Instant} {v : Node roster.size}

/-- A validator starts on the height after the best one, with nothing under way. -/
theorem start_core (hl : l.Ordered)
    (h : Validator.start config roster me l policy clock now = .ok (.ok v)) :
    ∃ (next : Height) (serial : Serial) (view : View roster.size),
      l.blocks.length = next.number ∧
      View.start roster.size me next config.recomputeMaxIterations.toNat serial = .ok view ∧
      v.core = ⟨roster.keys, view, .start l, false, none, none, true⟩ := by
  obtain ⟨next, serial, view, hsome, hnone, hview, rfl⟩ := start_ok h
  refine ⟨next, serial, view, ?_, hview, rfl⟩
  cases hbest : BlockEngine.bestHeight l with
  | some best => exact (hl.number_best hbest).trans (hsome best hbest).symm
  | none =>
      have hempty : l.blocks = [] := by
        simpa [BlockEngine.bestHeight, Ledger.bestHeight] using hbest
      rw [hempty, hnone hbest]
      rfl

/-- **A validator that starts on what its ledger has stored is coupled.** -/
theorem coupled_start (hl : l.Ordered)
    (h : Validator.start config roster me l policy clock now = .ok (.ok v)) : v.core.Coupled := by
  obtain ⟨next, serial, view, hlevel, hview, hcore⟩ := start_core hl h
  obtain ⟨_, hown, _⟩ := View.start_ok hview
  have hwait : view.own.phase = .waitBlock := by rw [hown]; rfl
  have hnone : view.own.block = none := by rw [hown]; rfl
  have hlevel : l.blocks.length = view.own.height.number := by rw [hown]; exact hlevel
  rw [hcore]
  exact ⟨.start hview, .start l, hl, .inl hlevel, fun _ _ => .inl hwait,
    fun r hr => (nomatch hnone.symm.trans hr), fun r s hr _ => (nomatch hnone.symm.trans hr),
    fun _ => rfl, fun _ => hlevel⟩

end Start

end Validator

end QuorumChain
