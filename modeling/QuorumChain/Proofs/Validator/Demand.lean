import QuorumChain.Proofs.Ledger.Chain
import QuorumChain.Proofs.Validator.Level

/-! Building on demand. What was asked for is a bound on the blocks that are built as long as a validator
commits every block by itself. The policy does not hear of blocks that others have committed, so a
validator that adds such blocks goes on building above the bound. -/

namespace QuorumChain

namespace OnDemand

variable {p : OnDemand}

theorem shouldBuild_iff : p.shouldBuild = true ↔
    ∃ upTo, p.upTo = some upTo ∧ ∀ best, p.best = some best → best < upTo := by
  unfold shouldBuild
  split
  next upTo best hupTo hbest => simp [hupTo, hbest]
  next upTo hupTo hbest => simp [hupTo, hbest]
  next hupTo => simp [hupTo]

theorem shouldBuild_buildUpTo (h : p.shouldBuild = true) (height : Height) :
    (p.buildUpTo height).shouldBuild = true := by
  obtain ⟨upTo, hupTo, hbest⟩ := shouldBuild_iff.mp h
  have hle : upTo ≤ max upTo height := by
    show upTo ≤ if upTo ≤ height then height else upTo
    split
    next hle => exact hle
    next => exact Nat.le_refl _
  refine shouldBuild_iff.mpr ⟨max upTo height, by simp [buildUpTo, hupTo], fun best hb => ?_⟩
  exact Nat.lt_of_lt_of_le (hbest best hb) hle

end OnDemand

/-- The greatest height that was asked for in a run, if any was. -/
def Asks (run : List Happening) : Option Height → Prop
  | none => ∀ height, .event (.wanted height) ∉ run
  | some upTo => .event (.wanted upTo) ∈ run ∧ ∀ height, .event (.wanted height) ∈ run → height ≤ upTo

namespace Asks

variable {run : List Happening} {upTo? : Option Height} {x : Happening}

theorem snoc (h : Asks run upTo?) (hx : ∀ height, x ≠ .event (.wanted height)) :
    Asks (run ++ [x]) upTo? := by
  have hmem : ∀ height, .event (.wanted height) ∈ run ++ [x] → .event (.wanted height) ∈ run := by
    intro height hheight
    rcases List.mem_append.mp hheight with hheight | hheight
    · exact hheight
    · exact absurd (List.mem_singleton.mp hheight).symm (hx height)
  cases upTo? with
  | none => exact fun height hheight => h height (hmem height hheight)
  | some upTo => exact ⟨List.mem_append_left _ h.1, fun height hheight => h.2 height (hmem height hheight)⟩

theorem want (p : OnDemand) (h : Asks run p.upTo) (height : Height) :
    Asks (run ++ [.event (.wanted height)]) (p.buildUpTo height).upTo := by
  have hmem : ∀ k, Happening.event (.wanted k) ∈ run ++ [.event (.wanted height)] →
      .event (.wanted k) ∈ run ∨ k = height := by
    intro k hk
    rcases List.mem_append.mp hk with hk | hk
    · exact .inl hk
    · cases List.mem_singleton.mp hk
      exact .inr rfl
  have hnew : Happening.event (.wanted height) ∈ run ++ [.event (.wanted height)] := by simp
  unfold OnDemand.buildUpTo
  cases hupTo : p.upTo with
  | none =>
      rw [hupTo] at h
      refine ⟨hnew, fun k hk => ?_⟩
      rcases hmem k hk with hk | rfl
      · exact absurd hk (h k)
      · exact Nat.le_refl _
  | some upTo =>
      rw [hupTo] at h
      by_cases hle : upTo ≤ height
      · have hmax : max upTo height = height := if_pos hle
        simp only [hmax]
        refine ⟨hnew, fun k hk => ?_⟩
        rcases hmem k hk with hk | rfl
        · exact Nat.le_trans (h.2 k hk) hle
        · exact Nat.le_refl _
      · have hmax : max upTo height = upTo := if_neg hle
        simp only [hmax]
        refine ⟨List.mem_append_left _ h.1, fun k hk => ?_⟩
        rcases hmem k hk with hk | rfl
        · exact h.2 k hk
        · exact Nat.le_of_not_le hle

end Asks

/-- Work is done or its result taken, or blocks are asked for, or the validator stops. -/
def ValidatorEvent.Drives : ValidatorEvent → Prop
  | .workDone _ | .resultTaken | .wanted _ | .shutdown _ => True
  | _ => False

namespace Validator

section Part

variable {n : ValidatorCount} {σ β ω ε : Type} [BlockEngine σ β ω ε] [CryptoSuite]
  {v w : Validator n σ β ω ε} {e : ValidatorEvent} {out : List Outbound} {p : OnDemand}

/-- Building is on demand, and work on a block is under way only if one is due. -/
structure Demands (v : Validator n σ β ω ε) (p : OnDemand) : Prop where
  policy : v.executor.policy = .onDemand p
  due : v.work = some (.issued .build) → p.shouldBuild = true

/-- The same work is under way as before, or some was issued as none was. -/
def Carries (v w : Validator n σ β ω ε) : Prop :=
  (w.work = v.work ∧ w.executor.processing = v.executor.processing) ∨
    (v.executor.processing = false ∧ ∃ task, w.work = some (.issued task))

/-- Other events leave the policy as it is, and issue work at most. -/
theorem Part.undriven (h : Part e v out w) (he : ¬ e.Drives) (hv : v.Demands p) :
    w.Demands p ∧ v.Carries w := by
  obtain ⟨hpolicy, hdue⟩ := hv
  cases h with
  | wait hwait =>
      rw [hpolicy] at hwait
      simp only [BuildPolicy.shouldBuild, pure_eq_ok, Prod.mk.injEq] at hwait
      exact ⟨⟨hwait.2.symm, hdue⟩, .inl ⟨rfl, rfl⟩⟩
  | build hidle _ hbuild =>
      rw [hpolicy] at hbuild
      simp only [BuildPolicy.shouldBuild, pure_eq_ok, Prod.mk.injEq] at hbuild
      exact ⟨⟨hbuild.2.symm, fun _ => hbuild.1⟩, .inr ⟨hidle, _, rfl⟩⟩
  | commit hidle _ _ _ => exact ⟨⟨hpolicy, nofun⟩, .inr ⟨hidle, _, rfl⟩⟩
  | load hidle _ => exact ⟨⟨hpolicy, nofun⟩, .inr ⟨hidle, _, rfl⟩⟩
  | add _ hidle _ _ => exact ⟨⟨hpolicy, nofun⟩, .inr ⟨hidle, _, rfl⟩⟩
  | run hrun _ => rcases hrun with rfl | rfl <;> exact absurd trivial he
  | take htake _ _ =>
      subst htake
      exact absurd trivial he
  | want hwant =>
      subst hwant
      exact absurd trivial he
  | _ => exact ⟨⟨hpolicy, hdue⟩, .inl ⟨rfl, rfl⟩⟩

theorem Parts.undriven (h : Parts e v out w) (he : ¬ e.Drives) (hv : v.Demands p) :
    w.Demands p ∧ v.Carries w := by
  induction h with
  | none => exact ⟨hv, .inl ⟨rfl, rfl⟩⟩
  | snoc _ hpart ih =>
      obtain ⟨hdemands, hcarries⟩ := hpart.undriven he ih.1
      refine ⟨hdemands, ?_⟩
      rcases ih.2 with ⟨hwork, hbusy⟩ | ⟨hidle, task, hissued⟩
      · rcases hcarries with ⟨hwork', hbusy'⟩ | ⟨hidle, hissued⟩
        · exact .inl ⟨hwork'.trans hwork, hbusy'.trans hbusy⟩
        · exact .inr ⟨hbusy.symm.trans hidle, hissued⟩
      · rcases hcarries with ⟨hwork', _⟩ | ⟨_, hissued'⟩
        · exact .inr ⟨hidle, task, hwork'.trans hissued⟩
        · exact .inr ⟨hidle, hissued'⟩

end Part

end Validator

namespace Core

variable {n : ValidatorCount} [CryptoSuite] {c c' : Core n} {e : ValidatorEvent}

/-- Nothing is stored while no work is done. -/
theorem Step.blocks_undriven (hs : Step e c c') (he : ¬ e.Drives) : c'.blocks = c.blocks := by
  cases hs with
  | view _ _ => rfl
  | jump _ _ _ _ => rfl
  | hear _ _ _ _ hvalid _ =>
      rcases Database.verifySignature_cases hvalid with ⟨_, rfl⟩ | ⟨_, _, _, _, _, rfl⟩
      · rfl
      · rfl
  | issue _ _ => rfl
  | run hrun _ _ => rcases hrun with rfl | rfl <;> exact absurd trivial he
  | take _ _ _ => rfl

theorem Path.blocks_undriven (hs : Path e c c') (he : ¬ e.Drives) : c'.blocks = c.blocks := by
  induction hs with
  | refl => rfl
  | tail _ hstep ih => exact (hstep.blocks_undriven he).trans ih

end Core

namespace Validator

open QuorumChain.Core

variable {n : ValidatorCount} [CryptoSuite] {u v w : Node n} {run : List Happening} {p : OnDemand}

/-- A block that a validator has stored in a run as one that others have committed. -/
def Adopts (v : Node n) (run : List Happening) (b : WitnessedBlock) : Prop :=
  ∃ part x height, part ++ [x] <+: run ∧ (v.after part).work = some (.issued (.add height b)) ∧
    (v.after (part ++ [x])).core.blocks = (v.after part).core.blocks ++ [b]

theorem Adopts.snoc {b : WitnessedBlock} (h : v.Adopts run b) (x : Happening) : v.Adopts (run ++ [x]) b := by
  obtain ⟨part, y, height, hpart, hwork, hblocks⟩ := h
  exact ⟨part, y, height, hpart.trans (List.prefix_append _ _), hwork, hblocks⟩

/-- What a policy on demand knows after a run. It has heard of every stored block up to the best one that
it was told of, and all blocks above that one were adopted, except for one whose commit it is about to be
told of. -/
structure Supplied (v : Node n) (run : List Happening) (w : Node n) (p : OnDemand) : Prop where
  demands : w.Demands p
  kept : p.dropped = false
  asks : Asks run p.upTo
  adopted : ∀ k b, w.core.blocks[k]? = some b → (∀ best, p.best = some best → best.number < k) →
    v.Adopts run b ∨ ∃ b', w.work = some (.done (.committed b' (.ok ())))
  top : ∀ b, w.work = some (.done (.committed b (.ok ()))) → b.height.number + 1 = w.core.blocks.length

namespace Supplied

/-- Nothing else than that something happened is new. -/
theorem idle {x : Happening} (h : v.Supplied run u p) (hx : ∀ height, x ≠ .event (.wanted height))
    (hdemands : w.Demands p)
    (hwork : ∀ b, w.work = some (.done (.committed b (.ok ()))) ↔
      u.work = some (.done (.committed b (.ok ()))))
    (hblocks : w.core.blocks = u.core.blocks) : v.Supplied (run ++ [x]) w p where
  demands := hdemands
  kept := h.kept
  asks := h.asks.snoc hx
  adopted k b hb habove := by
    rw [hblocks] at hb
    rcases h.adopted k b hb habove with hadopts | ⟨b', hb'⟩
    · exact .inl (hadopts.snoc x)
    · exact .inr ⟨b', (hwork _).mpr hb'⟩
  top b hb := by
    rw [hblocks]
    exact h.top b ((hwork _).mp hb)

/-- At an event that does not drive the validator. -/
theorem undriven (h : v.Supplied run u p) (hu : u.core.Coupled) (hrunning : u.running = true)
    {e : ValidatorEvent} (he : ¬ e.Drives) {out : List Outbound} (hparts : Parts e u out w) :
    v.Supplied (run ++ [.event e]) w p := by
  obtain ⟨hdemands, hcarries⟩ := hparts.undriven he h.demands
  refine h.idle ?_ hdemands (fun b => ?_) (hparts.path.blocks_undriven he)
  · rintro height heq
    cases heq
    exact he trivial
  · rcases hcarries with ⟨hwork, _⟩ | ⟨hidle, task, hissued⟩
    · rw [hwork]
    · have hnone : u.work = none := (hu.idle hrunning hidle).1
      simp [hnone, hissued]

/-- When work is done: what is new in the chain was adopted, or was committed. -/
theorem done {task : Task} {result : Completion LedgerError} {x : Happening} (h : v.Supplied run u p)
    (hwork : u.work = some (.issued task)) (hx : ∀ height, x ≠ .event (.wanted height))
    (hpolicy : w.executor.policy = u.executor.policy) (hdone : w.work = some (.done result))
    (hblocks : ∀ (k : Nat) (b : WitnessedBlock), w.core.blocks[k]? = some b →
      u.core.blocks[k]? = some b ∨ v.Adopts (run ++ [x]) b ∨ ∃ b', result = .committed b' (.ok ()))
    (htop : ∀ b, result = .committed b (.ok ()) → b.height.number + 1 = w.core.blocks.length) :
    v.Supplied (run ++ [x]) w p where
  demands := ⟨hpolicy.trans h.demands.policy, fun hissued => nomatch hdone.symm.trans hissued⟩
  kept := h.kept
  asks := h.asks.snoc hx
  adopted k b hb habove := by
    rcases hblocks k b hb with hb | hadopts | ⟨b', rfl⟩
    · rcases h.adopted k b hb habove with hadopts | ⟨b', hb'⟩
      · exact .inl (hadopts.snoc x)
      · exact nomatch hwork.symm.trans hb'
    · exact .inl hadopts
    · exact .inr ⟨b', hdone⟩
  top b hb := htop b (Work.done.inj (Option.some.inj (hdone.symm.trans hb)))

theorem workDone (h : v.Supplied run u p) (hafter : v.after run = u) (hu : u.core.Coupled)
    (hrunning : u.running = true) (clock : WallClock) :
    v.Supplied (run ++ [.event (.workDone clock)]) (u.runWork clock) p := by
  have hx : ∀ height, Happening.event (.workDone clock) ≠ .event (.wanted height) := nofun
  by_cases hwork : ∃ task, u.work = some (.issued task)
  · obtain ⟨task, hwork⟩ := hwork
    have hadmits := hu.admits hrunning
    rw [show u.core.work = _ from hwork] at hadmits
    have hlevel : u.core.blocks.length = u.own.height.number := hadmits.issued
    rcases hperform : u.executor.database.perform clock task with ⟨result, database⟩
    have hrun : u.runWork clock =
        { u with executor := { u.executor with database }, work := some (.done result) } := by
      simp only [runWork, hwork, Executor.run_eq, hperform]
    have hnext : v.after (run ++ [.event (.workDone clock)]) = u.runWork clock := by
      rw [after_append, hafter]
      simp [meet, Validator.handle, hrunning, react]
    rw [hrun] at hnext ⊢
    rcases (Database.perform_cases hperform).blocks_cases with ⟨hblocks, hother⟩ |
      ⟨height, b, rfl, rfl, hblocks⟩ | ⟨b, signatures, _, rfl, rfl, hblocks⟩
    · refine h.done hwork hx rfl rfl (fun k b hb => .inl ?_) (fun b heq => absurd heq (hother b))
      have hb : database.engine.blocks[k]? = some b := hb
      rw [hblocks] at hb
      exact hb
    · refine h.done hwork hx rfl rfl (fun k b' hb' => ?_) (fun b' heq => by cases heq)
      have hb' : (u.core.blocks ++ [b])[k]? = some b' := hblocks ▸ hb'
      rcases Ledger.stored_cases hb' with ⟨_, hb'⟩ | ⟨_, rfl⟩
      · exact .inl hb'
      · refine .inr (.inl ⟨run, _, height, List.prefix_rfl, ?_, ?_⟩)
        · rw [hafter]
          exact hwork
        · rw [hnext, hafter]
          exact hblocks
    · obtain ⟨_, _, hblock, hcurrent⟩ := hadmits
      have hheight := (hu.current_fits hblock hcurrent).2
      refine h.done hwork hx rfl rfl (fun k b' _ => .inr (.inr ⟨b, rfl⟩)) ?_
      rintro b' heq
      cases heq
      show b.height.number + 1 = database.engine.blocks.length
      rw [hblocks, List.length_append, hheight]
      exact congrArg (· + 1) hlevel.symm
  · have hsame : u.runWork clock = u := by
      unfold runWork
      split
      next task hissued => exact absurd ⟨task, hissued⟩ hwork
      · rfl
    rw [hsame]
    exact h.idle hx h.demands (fun _ => Iff.rfl) rfl

/-- When a result is taken. The policy is told of a block that was committed. -/
theorem resultTaken (h : v.Supplied run u p) (hu : u.core.Coupled) (hrunning : u.running = true)
    (htake : u.takeResult = .ok w) : ∃ q, v.Supplied (run ++ [.event .resultTaken]) w q := by
  have hx : ∀ height, Happening.event .resultTaken ≠ .event (.wanted height) := nofun
  unfold takeResult at htake
  split at htake
  next result hwork =>
    obtain ⟨x, hcomplete, htake⟩ := bind_eq_ok.mp htake
    cases htake
    have hadmits := hu.admits hrunning
    rw [show u.core.work = _ from hwork] at hadmits
    have htaken : ∀ {y : Executor n Ledger StagedBlock SignatureCollector},
        y.policy = u.executor.policy → y.database = u.executor.database →
        (∀ b, result ≠ .committed b (.ok ())) →
        v.Supplied (run ++ [.event .resultTaken]) { u with executor := y, work := none } p := by
      intro y hpolicy hdatabase hresult
      refine h.idle hx ⟨hpolicy.trans h.demands.policy, nofun⟩ (fun b => ?_)
        (congrArg (fun d : Store => d.engine.blocks) hdatabase)
      constructor
      · exact nofun
      · intro hb
        exact absurd (Work.done.inj (Option.some.inj (hwork.symm.trans hb))) (hresult b)
    cases Executor.complete_cases hcomplete with
    | failed hresult =>
        refine ⟨p, htaken rfl rfl ?_⟩
        rintro b rfl
        exact nomatch hresult
    | loaded hview => exact ⟨p, htaken rfl rfl nofun⟩
    | built hview => exact ⟨p, htaken rfl rfl nofun⟩
    | added hnext hview => exact ⟨p, htaken rfl rfl nofun⟩
    | @committed b outcome view hview =>
        obtain ⟨rfl, _⟩ := View.handle_committed hadmits.2.2 hview
        have htop := h.top b hwork
        refine ⟨{ p with best := some b.height }, ⟨?_, nofun⟩, h.kept, h.asks.snoc hx,
          fun k b' hb' habove => ?_, nofun⟩
        · show (if Outcome.accepted = .accepted then u.executor.policy.committed b
            else u.executor.policy) = _
          rw [if_pos rfl, h.demands.policy, BuildPolicy.committed, OnDemand.committed, h.kept]
          rfl
        -- The block that was committed is the topmost one.
        · have hlt : k < u.core.blocks.length := (List.getElem?_eq_some_iff.mp hb').1
          have hgt : b.height.number < k := habove b.height rfl
          omega
  · cases htake
    exact ⟨p, h.idle hx h.demands (fun _ => Iff.rfl) rfl⟩

/-- When blocks are asked for. -/
theorem wanted (h : v.Supplied run u p) (height : Height) :
    v.Supplied (run ++ [.event (.wanted height)]) (u.buildUpTo height) (p.buildUpTo height) where
  demands := by
    refine ⟨?_, fun hwork => OnDemand.shouldBuild_buildUpTo (h.demands.due hwork) height⟩
    show u.executor.policy.buildUpTo height = _
    rw [h.demands.policy]
    rfl
  kept := h.kept
  asks := h.asks.want p height
  adopted k b hb habove := (h.adopted k b hb habove).imp_left fun hadopts => hadopts.snoc _
  top := h.top

theorem conclude {e : ValidatorEvent} (h : v.Supplied run u p) (he : ¬ e.Drives) :
    v.Supplied run (u.conclude e).2 p := by
  cases e with
  | tick now clock choice =>
      exact ⟨⟨h.demands.policy, h.demands.due⟩, h.kept, h.asks, h.adopted, h.top⟩
  | shutdown clock => exact absurd trivial he
  | _ => exact h

/-- **What the policy knows stays true** as long as the validator runs. -/
theorem meet (h : v.Supplied run (v.after run) p) (hu : (v.after run).core.Coupled) (x : Happening)
    (hrunning : (v.after (run ++ [x])).running = true) :
    ∃ q, v.Supplied (run ++ [x]) (v.after (run ++ [x])) q := by
  have hnext : v.after (run ++ [x]) = ((v.after run).meet x).2 := after_append v run [x]
  rw [hnext] at hrunning ⊢
  cases x with
  | submitted tx =>
      exact ⟨p, h.idle nofun ⟨h.demands.policy, h.demands.due⟩ (fun _ => Iff.rfl) rfl⟩
  | closed => exact ⟨p, h.idle nofun ⟨h.demands.policy, h.demands.due⟩ (fun _ => Iff.rfl) rfl⟩
  | event e =>
      change ((v.after run).handle e).2.running = true at hrunning
      change ∃ q, v.Supplied (run ++ [.event e]) ((v.after run).handle e).2 q
      cases hbefore : (v.after run).running with
      | false =>
          rw [handle_stopped e hbefore] at hrunning
          exact nomatch hbefore.symm.trans hrunning
      | true =>
          by_cases he : e.Drives
          · unfold Validator.handle at hrunning ⊢
            rw [if_pos hbefore] at hrunning ⊢
            cases e with
            | workDone clock => exact ⟨p, h.workDone rfl hu hbefore clock⟩
            | wanted height => exact ⟨_, h.wanted height⟩
            | shutdown clock => cases hrunning
            | resultTaken =>
                cases htake : (v.after run).takeResult with
                | ok w =>
                    simp only [react, htake]
                    exact h.resultTaken hu hbefore htake
                | error fault =>
                    simp only [react, htake] at hrunning
                    cases hrunning
            | _ => exact he.elim
          · rcases handle_parts e hbefore with ⟨sent, w, hparts, hhandle⟩ | hhandle
            · rw [hhandle]
              exact ⟨p, (h.undriven hu hbefore he hparts).conclude he⟩
            · rw [hhandle] at hrunning
              cases hrunning

end Supplied

section Start

variable {config : Config} {roster : Roster} {me : PeerIndex} {l : Ledger} {clock : WallClock}
  {now : Instant} {v : Node roster.size}

theorem supplied_start (hl : l.Ordered)
    (hstart : Validator.start config roster me l (.onDemand (.start l.bestHeight)) clock now =
      .ok (.ok v)) : v.Supplied [] v (.start l.bestHeight) := by
  obtain ⟨_, _, view, _, _, hview, rfl⟩ := start_ok hstart
  refine ⟨⟨rfl, nofun⟩, rfl, fun _ => List.not_mem_nil, fun k b hb habove => ?_, nofun⟩
  have hk : k < l.blocks.length := (List.getElem?_eq_some_iff.mp hb).1
  cases hbest : l.bestHeight with
  | none =>
      have hempty : l.blocks = [] := by simpa [Ledger.bestHeight] using hbest
      rw [hempty] at hk
      exact absurd hk (Nat.not_lt_zero k)
  | some best =>
      have hlt := habove best hbest
      have hlength := hl.number_best hbest
      omega

theorem supplied_after (hl : l.Ordered)
    (hstart : Validator.start config roster me l (.onDemand (.start l.bestHeight)) clock now =
      .ok (.ok v)) (run : List Happening) (hrunning : (v.after run).running = true) :
    ∃ p, v.Supplied run (v.after run) p := by
  induction run using List.reverseRecOn with
  | nil => exact ⟨_, supplied_start hl hstart⟩
  | append_singleton run x ih =>
      have hbefore : (v.after run).running = true := by
        by_contra hstopped
        have hnext : v.after (run ++ [x]) = ((v.after run).meet x).2 := after_append v run [x]
        rw [hnext, (meet_stopped x (Bool.eq_false_iff.mpr hstopped)).1] at hrunning
        cases hrunning
      obtain ⟨p, hp⟩ := ih hbefore
      exact hp.meet (coupled_after (coupled_start hl hstart) run) x hrunning

/-- **A block is built above what was asked for only on top of adopted blocks.** Of whatever is built on
demand, the height is at most the greatest one that was asked for, unless every block from that height on
up to the one below it was added as one that others have committed. -/
theorem built_within_demand (hl : l.Ordered)
    (hstart : Validator.start config roster me l (.onDemand (.start l.bestHeight)) clock now =
      .ok (.ok v)) (run : List Happening) (hwork : (v.after run).work = some (.issued .build))
    {clock' : WallClock} {b : Block} {s : CommitSignature}
    (hbuilt : ((v.after run).executor.database.build clock').1 = .ok (b, s)) :
    ∃ upTo, Asks run (some upTo) ∧ ∀ k, upTo.number ≤ k → k < b.height.number →
      ∃ c, (v.after run).core.blocks[k]? = some c ∧ v.Adopts run c := by
  obtain ⟨_, _, _, _, _, hcore⟩ := start_core hl hstart
  have hcoupled := coupled_after (coupled_start hl hstart) run
  have hrunning : (v.after run).running = true :=
    (tracks_after (.ofRunning (coupled_start hl hstart) (congrArg Core.running hcore)) run).running hwork
  obtain ⟨p, hp⟩ := supplied_after hl hstart run hrunning
  obtain ⟨upTo, hupTo, hbest⟩ := OnDemand.shouldBuild_iff.mp (hp.demands.due hwork)
  refine ⟨upTo, hupTo ▸ hp.asks, fun k hk hlt => ?_⟩
  have hlevel : (v.after run).core.blocks.length = (v.after run).own.height.number := by
    have hadmits := hcoupled.admits hrunning
    rw [show (v.after run).core.work = _ from hwork] at hadmits
    exact hadmits.issued
  have hheight : b.height = (v.after run).own.height := by
    rcases hbuild : (v.after run).executor.database.build clock' with ⟨r, d⟩
    rw [hbuild] at hbuilt
    rcases Database.build_cases hbuild with ⟨e, he, _⟩ | ⟨t, ht, hstages⟩
    · exact nomatch he.symm.trans hbuilt
    · cases ht.symm.trans hbuilt
      exact Coupled.height_eq (c := (v.after run).core) hlevel hstages.extends_chain
  have hstored : k < (v.after run).core.blocks.length := by
    rw [hlevel, ← hheight]
    exact hlt
  have hc := List.getElem?_eq_getElem hstored
  refine ⟨_, hc, ?_⟩
  rcases hp.adopted k _ hc fun best hb => Nat.lt_of_lt_of_le (hbest best hb) hk with hadopts | ⟨b', hb'⟩
  · exact hadopts
  · exact nomatch hwork.symm.trans hb'

end Start

end Validator

section Quartet

local instance demandingSuite : CryptoSuite := plainSuite

/-- Validator 1 is asked for a block of height 0. Validators 0 and 2 have one already, and it adds that. -/
def adoptedRun : List Happening :=
  [.event (.wanted .zero),
    heard 0 (.status (.start (.ofNatClamped 1) (.ofNatClamped 1))),
    heard 2 (.status (.start (.ofNatClamped 1) (.ofNatClamped 1))),
    heard 0 (.completeBlock .zero ⟨plainBlock 1, plainWitness (plainBlock 1)⟩),
    .event (.workDone ⟨0⟩), .event .resultTaken, .event (.intentWanted ⟨0⟩)]

/-- Validator 1, which builds on demand and was not asked for anything yet. -/
def demandingStart : Except Fault (Except ValidatorError (Node quartet)) :=
  Validator.start {} (plainRoster quartet) (quartet.indexOf 1) (plainLedger (n := quartet) 1)
    (.onDemand (.start (plainLedger (n := quartet) 1).bestHeight)) ⟨0⟩ .origin

/-- What is built on demand next. -/
def Validator.buildsNow (v : Node quartet) : Option (Block × CommitSignature) :=
  match v.work with
  | some (.issued .build) => (v.executor.database.build ⟨5⟩).1.toOption
  | _ => none

theorem Validator.buildsNow_eq_some {v : Node quartet} {b : Block} {s : CommitSignature}
    (h : v.buildsNow = some (b, s)) :
    v.work = some (.issued .build) ∧ (v.executor.database.build ⟨5⟩).1 = .ok (b, s) := by
  unfold buildsNow at h
  split at h
  next hwork =>
    refine ⟨hwork, ?_⟩
    cases hbuilt : (v.executor.database.build ⟨5⟩).1 with
    | ok built =>
        rw [hbuilt] at h
        exact congrArg Except.ok (Option.some.inj h)
    | error e =>
        rw [hbuilt] at h
        cases h
  · cases h

theorem demandingStart_builds :
    ∃ v b s, demandingStart = .ok (.ok v) ∧ (v.after adoptedRun).running = true ∧
      (v.after adoptedRun).work = some (.issued .build) ∧
      ((v.after adoptedRun).executor.database.build ⟨5⟩).1 = .ok (b, s) ∧ b.height = .ofNatClamped 1 := by
  obtain ⟨v, hstart, hrunning, hheight⟩ := exists_started (x := demandingStart)
    (P := fun v => (v.after adoptedRun).running = true ∧
      (v.after adoptedRun).buildsNow.map (fun built => built.1.height) = some (.ofNatClamped 1))
    (by decide +kernel)
  obtain ⟨⟨b, s⟩, hbuilds, hb⟩ := Option.map_eq_some_iff.mp hheight
  obtain ⟨hwork, hbuilt⟩ := Validator.buildsNow_eq_some hbuilds
  exact ⟨v, b, s, hstart, hrunning, hwork, hbuilt, hb⟩

/-- Validator 1 is asked for a block of height 0 only, and after it has added one of validators 0 and 2 it
builds the block above that. -/
theorem demand_overshot :
    ∃ v b s, demandingStart = .ok (.ok v) ∧ (v.after adoptedRun).running = true ∧
      (v.after adoptedRun).work = some (.issued .build) ∧
      ((v.after adoptedRun).executor.database.build ⟨5⟩).1 = .ok (b, s) ∧
      ∀ height, .event (.wanted height) ∈ adoptedRun → height < b.height := by
  obtain ⟨v, b, s, hstart, hrunning, hwork, hbuilt, hb⟩ := demandingStart_builds
  refine ⟨v, b, s, hstart, hrunning, hwork, hbuilt, fun height hheight => ?_⟩
  have hzero : height = .zero := by simpa [adoptedRun, heard] using hheight
  rw [hzero, hb]
  decide

/-- The block below the one that is built is the one that validators 0 and 2 have committed. -/
theorem built_within_demand_adopted :
    ∃ v b s, demandingStart = .ok (.ok v) ∧
      (v.after adoptedRun).work = some (.issued .build) ∧
      ((v.after adoptedRun).executor.database.build ⟨5⟩).1 = .ok (b, s) ∧ b.height = .ofNatClamped 1 ∧
      ∃ c, (v.after adoptedRun).core.blocks[0]? = some c ∧ v.Adopts adoptedRun c := by
  obtain ⟨v, b, s, hstart, _, hwork, hbuilt, hb⟩ := demandingStart_builds
  obtain ⟨upTo, hupTo, hadopted⟩ :=
    Validator.built_within_demand (fun _ _ h => by cases h) hstart adoptedRun hwork hbuilt
  have hzero : upTo = .zero := by simpa [adoptedRun, heard] using hupTo.1
  refine ⟨v, b, s, hstart, hwork, hbuilt, hb, hadopted 0 (by rw [hzero]; decide) ?_⟩
  rw [hb]
  decide

end Quartet

end QuorumChain
