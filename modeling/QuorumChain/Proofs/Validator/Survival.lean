import QuorumChain.Proofs.Ledger.Pending
import QuorumChain.Proofs.Validator.Level
import QuorumChain.Proofs.View.Room

/-! What a validator survives. Its counters do not run out in any run that can take place, whatever its
peers say, as every event takes a few changes of its own status at most. What is left is the time of day:
it has to be read where blocks are built by time, so the system clock is to be one that can be read. -/

namespace QuorumChain

/-- The system clock, where the event comes with it, can be read. -/
def ValidatorEvent.IsTimely : ValidatorEvent → Prop
  | .tick _ clock _ | .intentWanted clock | .workDone clock | .shutdown clock => clock.IsReadable
  | _ => True

/-- There is a result that has a property; or the time of day is wanted, is so only in a given case, and
cannot be read. -/
inductive Settles {α : Type} (late : Prop) (P : α → Prop) : Except Fault α → Prop
  | done {a : α} (h : P a) : Settles late P (.ok a)
  | late (h : late) : Settles late P (.error .clockOutOfRange)

namespace Settles

variable {α β : Type} {late late' : Prop} {P : α → Prop} {Q : β → Prop}

theorem bind {x : Except Fault α} {f : α → Except Fault β} (hx : Settles late P x)
    (hf : ∀ a, P a → Settles late Q (f a)) : Settles late Q (x >>= f) := by
  cases hx with
  | done h => exact hf _ h
  | late h => exact .late h

theorem ok_bind {a : α} {f : α → Except Fault β} (h : Settles late Q (f a)) :
    Settles late Q (.ok a >>= f) := h

theorem imp {x : Except Fault α} (hx : Settles late P x) (h : late → late') : Settles late' P x := by
  cases hx with
  | done ha => exact .done ha
  | late hlate => exact .late (h hlate)

theorem error_eq {fault : Fault} (h : Settles late P (.error fault)) : fault = .clockOutOfRange ∧ late := by
  cases h with
  | late hlate => exact ⟨rfl, hlate⟩

end Settles

theorem BuildPolicy.shouldBuild_settles (p : BuildPolicy) (clock : WallClock) (waiting : Nat) :
    Settles ((∃ q, p = .paced q) ∧ clock.read = .error .clockOutOfRange) (fun _ => True)
      (p.shouldBuild clock waiting) := by
  cases p with
  | onDemand p => exact .done trivial
  | paced p =>
      unfold shouldBuild
      cases hread : clock.read with
      | ok now => exact .done trivial
      | error fault =>
          cases WallClock.read_error hread
          exact .late ⟨⟨p, rfl⟩, rfl⟩

namespace Executor

variable {n : ValidatorCount} {σ β ω ε : Type} {x : Executor n σ β ω} {clock : WallClock} {k : Nat}
  {late : Prop}

theorem handleView_settles {e : ViewEvent} (h : x.view.Room (k + 3))
    (he : ∀ height, e ≠ .fastForward height) :
    Settles late (fun r => r.2.view.Room k) (x.handleView e) := by
  obtain ⟨outcome, view, hview, hroom⟩ := h.handle_ok he
  rw [handleView_eq_ok.mpr ⟨view, hview, rfl⟩]
  exact .done hroom

theorem viewIntent_ok (h : x.view.Room (k + 3)) :
    ∃ intent view, x.viewIntent = .ok (intent, { x with view }) ∧ view.Room k := by
  obtain ⟨outcome, view, hview, hroom⟩ := h.handle_ok (e := .intentWanted) nofun
  exact ⟨_, view, viewIntent_eq_ok.mpr ⟨outcome, view, hview, rfl, rfl⟩, hroom⟩

theorem issue_view (x : Executor n σ β ω) (task : Task) : (x.issue task).2.view = x.view := by
  unfold issue
  split
  · rfl
  · rfl

theorem takeCommitted_settles (height : Height) (b : WitnessedBlock) (h : x.view.Room (k + 3)) :
    Settles late (fun r => r.2.view.Room k) (x.takeCommitted height b) := by
  obtain ⟨intent, view, hintent, hroom⟩ := viewIntent_ok h
  unfold takeCommitted
  rw [hintent]
  show Settles _ _ (if intent = .fetchBlockAtHeight height ∧ b.block.height = height then _ else _)
  split
  · exact .done (by rw [issue_view]; exact hroom)
  · exact .done hroom

variable [CryptoSuite]

theorem takeProposal_settles (b : Block) (h : x.view.Room (k + 3)) :
    Settles late (fun r => r.2.view.Room k) (x.takeProposal b) := by
  obtain ⟨intent, view, hintent, hroom⟩ := viewIntent_ok h
  unfold takeProposal
  rw [hintent]
  show Settles _ _ (if intent = .fetchUnfinishedBlock b.id then _ else _)
  split
  · exact .done (by rw [issue_view]; exact hroom)
  · exact .done hroom

/-- A block that is added is of the own height, which is not the last one. -/
theorem complete_settles {c : Completion ε} (h : x.view.Room (k + 3))
    (hadded : ∀ height, c = .added height (.ok ()) → height = x.view.own.height) :
    Settles late (fun y => y.view.Room k) (x.complete c) := by
  unfold complete
  split
  · refine Settles.bind (handleView_settles (k := k) h nofun) fun ⟨outcome, y⟩ hy => .done ?_
    rw [ite_current]
    exact hy
  next height =>
    obtain ⟨next, hnext, hnumber⟩ : ∃ next, height.next = some next ∧ _ := Counter.exists_next (by
      have := h.own.height
      rw [hadded height rfl]
      omega)
    rw [Counter.succ_eq_ok.mpr hnumber]
    refine .ok_bind (Settles.bind (handleView_settles (k := k) h nofun) fun ⟨outcome, y⟩ hy => .done ?_)
    rw [ite_current]
    exact hy
  · refine Settles.bind (handleView_settles (k := k) h nofun) fun ⟨outcome, y⟩ hy => .done ?_
    rw [ite_current]
    exact hy
  · refine Settles.bind (handleView_settles (k := k) h nofun) fun ⟨outcome, y⟩ hy => .done ?_
    show View.Room (if outcome = .accepted then _ else y).view k
    split
    · exact hy
    · exact hy
  · exact .done (h.mono (by omega))

variable [BlockEngine σ β ω ε]

/-- A block is to be built by the time of day, which cannot be read. -/
structure Misreads (x : Executor n σ β ω) (clock : WallClock) : Prop where
  idle : x.processing = false
  builds : ∃ y, x.viewIntent = .ok (.buildBlock, y)
  paced : ∃ p, x.policy = .paced p
  unread : clock.read = .error .clockOutOfRange

/-- **The time of day is all that acting on the intent can fail for.** -/
theorem update_settles (h : x.view.Room (k + 3)) :
    Settles (x.Misreads clock) (fun r => r.2.view.Room k) (x.update clock) := by
  obtain ⟨intent, view, hintent, hroom⟩ := viewIntent_ok h
  unfold update
  cases hbusy : x.processing with
  | true => exact .done (h.mono (by omega))
  | false =>
      rw [hintent]
      refine .ok_bind ?_
      cases intent with
      | buildBlock =>
          refine Settles.bind ((BuildPolicy.shouldBuild_settles ..).imp fun ⟨hpaced, hread⟩ =>
            ⟨hbusy, ⟨_, hintent⟩, hpaced, hread⟩) fun ⟨due, policy⟩ _ => ?_
          cases due with
          | true => exact .done (by rw [issue_view]; exact hroom)
          | false => exact .done hroom
      | commitBlock =>
          dsimp only
          split
          · exact .done (by rw [issue_view]; exact hroom)
          · exact .done hroom
      | _ => exact .done hroom

theorem intentNow_settles (h : x.view.Room (k + 6)) :
    Settles (x.Misreads clock) (fun r => r.2.2.view.Room k) (x.intentNow clock) := by
  refine Settles.bind (update_settles (k := k + 3) h) fun ⟨task, y⟩ hy => ?_
  show Settles _ _ (if y.processing = true then _ else _)
  split
  · exact .done (View.Room.mono hy (by omega))
  · obtain ⟨intent, view, hintent, hroom⟩ := viewIntent_ok (x := y) hy
    rw [hintent]
    exact .done hroom

theorem Misreads.intentNow_eq (h : x.Misreads clock) : x.intentNow clock = .error .clockOutOfRange := by
  obtain ⟨hidle, ⟨y, hintent⟩, ⟨p, hpolicy⟩, hread⟩ := h
  obtain ⟨outcome, view, hview, hy, _⟩ := viewIntent_eq_ok.mp hintent
  have hupdate : x.update clock = .error .clockOutOfRange := by
    unfold update
    rw [hidle, hintent, hy]
    show (x.policy.shouldBuild clock _ >>= _) = _
    rw [hpolicy, BuildPolicy.shouldBuild, hread]
    rfl
  unfold intentNow
  rw [hupdate]
  rfl

end Executor

namespace Validator

section Event

variable {n : ValidatorCount} {σ β ω ε : Type} {v : Validator n σ β ω ε} {k : Nat} {late : Prop}

theorem issue_executor (task : Option Task) (x : Executor n σ β ω) (v : Validator n σ β ω ε) :
    (v.issue task x).executor = x := by
  cases task with
  | none => rfl
  | some t => rfl

theorem handleView_settles {e : ViewEvent} (h : v.executor.view.Room (k + 3))
    (he : ∀ height, e ≠ .fastForward height) :
    Settles late (fun w => w.executor.view.Room k) (v.handleView e) :=
  Settles.bind (Executor.handleView_settles h he) fun _ hx => .done hx

theorem takeCommitted_settles (height : Height) (b : WitnessedBlock) (h : v.executor.view.Room (k + 3)) :
    Settles late (fun w => w.executor.view.Room k) (v.takeCommitted height b) :=
  Settles.bind (Executor.takeCommitted_settles height b h) fun _ hx => .done (by
    rw [issue_executor]
    exact hx)

theorem revoltIfDue_settles (now : Instant) (h : v.executor.view.Room (k + 3)) :
    Settles late (fun w => w.executor.view.Room k) (v.revoltIfDue now) := by
  unfold revoltIfDue
  dsimp only
  split
  · exact handleView_settles h nofun
  · exact .done (h.mono (by omega))

variable [CryptoSuite]

theorem takeProposal_settles (b : Block) (h : v.executor.view.Room (k + 3)) :
    Settles late (fun w => w.executor.view.Room k) (v.takeProposal b) :=
  Settles.bind (Executor.takeProposal_settles b h) fun _ hx => .done (by
    rw [issue_executor]
    exact hx)

/-- Every block that was added is of the own height. -/
theorem takeResult_settles (h : v.executor.view.Room (k + 3))
    (hadded : ∀ height, v.work = some (.done (.added height (.ok ()))) → height = v.own.height) :
    Settles late (fun w => w.executor.view.Room k) v.takeResult := by
  unfold takeResult
  split
  next result hwork =>
    refine Settles.bind (Executor.complete_settles h fun height hresult => ?_) fun _ hx => .done hx
    exact hadded height (hresult ▸ hwork)
  · exact .done (h.mono (by omega))

variable [BlockEngine σ β ω ε]

omit [CryptoSuite] in
theorem takeSignature_settles (sender : PeerIndex) (id : BlockId) (s : CommitSignature)
    (h : v.executor.view.Room (k + 3)) :
    Settles late (fun w => w.executor.view.Room k) (v.takeSignature sender id s) := by
  unfold takeSignature
  split
  · dsimp only
    split
    · exact handleView_settles h nofun
    · exact .done (h.mono (by omega))
  · exact .done (h.mono (by omega))

theorem learn_settles (sender : PeerIndex) (m : Message) (h : v.executor.view.Room (k + 3)) :
    Settles late (fun w => w.executor.view.Room k) (v.learn sender m) := by
  cases m with
  | status s => exact handleView_settles h nofun
  | unfinishedBlock b => exact takeProposal_settles b h
  | completeBlock height b => exact takeCommitted_settles height b h
  | blockSignature id s => exact takeSignature_settles sender id s h
  | getUnfinishedBlock id => exact .done (h.mono (by omega))
  | getBlockAtHeight height => exact .done (h.mono (by omega))
  | getBlockSignature id => exact .done (h.mono (by omega))

/-- **Whatever a peer says, a validator gets through it.** -/
theorem receive_settles (sender : PeerIndex) (m : Message) (h : v.executor.view.Room (k + 3)) :
    Settles late (fun r => r.2.executor.view.Room k) (v.receive sender m) := by
  unfold receive
  split
  · exact .done (h.mono (by omega))
  · exact Settles.bind (learn_settles sender m h) fun _ hw => .done hw

theorem intentNow_settles {clock : WallClock} (h : v.executor.view.Room (k + 6)) :
    Settles (v.executor.Misreads clock) (fun r => r.2.executor.view.Room k) (v.intentNow clock) :=
  Settles.bind (Executor.intentNow_settles h) fun _ hx => .done (by
    rw [issue_executor]
    exact hx)

omit [CryptoSuite] in
theorem runWork_view (v : Validator n σ β ω ε) (clock : WallClock) :
    (v.runWork clock).executor.view = v.executor.view := by
  unfold runWork
  split
  · exact Executor.run_view ..
  · rfl

/-- The event is one at which a block is to be built by the time of day, which cannot be read. -/
def Misreads (v : Validator n σ β ω ε) (e : ValidatorEvent) : Prop :=
  ∃ clock, (e = .intentWanted clock ∨ ∃ now choice, e = .tick now clock choice) ∧
    v.executor.Misreads clock

omit [CryptoSuite] [BlockEngine σ β ω ε] in
theorem Misreads.not_isTimely {e : ValidatorEvent} (h : v.Misreads e) : ¬ e.IsTimely := by
  intro htimely
  obtain ⟨clock, he, hmisreads⟩ := h
  have hreadable : clock.IsReadable := by
    rcases he with rfl | ⟨now, choice, rfl⟩
    · exact htimely
    · exact htimely
  exact hreadable.read_ne_error _ hmisreads.unread

/-- A tick that has nothing to jump over. -/
theorem tick_settles (now : Instant) (clock : WallClock) (choice : Nat) (hforward : v.fastForward = .ok v)
    (h : v.executor.view.Room (k + 9)) :
    Settles (v.Misreads (.tick now clock choice)) (fun r => r.2.executor.view.Room k)
      (v.tick now clock choice) := by
  unfold tick
  rw [hforward]
  refine .ok_bind (Settles.bind ((intentNow_settles (k := k + 3) h).imp fun hmisreads => ?_)
    fun ⟨intent, w⟩ hw => ?_)
  · exact ⟨clock, .inr ⟨now, choice, rfl⟩, hmisreads⟩
  · exact Settles.bind (revoltIfDue_settles (k := k) now hw) fun _ hu => .done hu

/-- **An event has a next state, unless the time of day cannot be read,** and takes a few changes at
most. -/
theorem react_settles (e : ValidatorEvent) (hforward : v.fastForward = .ok v)
    (hadded : ∀ height, v.work = some (.done (.added height (.ok ()))) → height = v.own.height)
    (h : v.executor.view.Room (k + 9)) :
    Settles (v.Misreads e) (fun r => r.2.executor.view.Room k) (v.react e) := by
  have hroom : v.executor.view.Room (k + 3) := h.mono (by omega)
  cases e with
  | tick now clock choice => exact tick_settles now clock choice hforward h
  | message sender m => exact receive_settles sender m hroom
  | proposal b => exact Settles.bind (takeProposal_settles b hroom) fun _ hw => .done hw
  | committed height b => exact Settles.bind (takeCommitted_settles height b hroom) fun _ hw => .done hw
  | signature sender id s =>
      exact Settles.bind (takeSignature_settles sender id s hroom) fun _ hw => .done hw
  | revolt => exact Settles.bind (handleView_settles hroom nofun) fun _ hw => .done hw
  | intentWanted clock =>
      refine Settles.bind ((intentNow_settles (k := k) (h.mono (by omega))).imp fun hmisreads => ?_)
        fun _ hw => .done hw
      exact ⟨clock, .inl rfl, hmisreads⟩
  | workDone clock =>
      refine .done ?_
      show View.Room (v.runWork clock).executor.view k
      rw [runWork_view]
      exact hroom.mono (by omega)
  | resultTaken => exact Settles.bind (takeResult_settles hroom hadded) fun _ hw => .done hw
  | wanted height => exact .done (h.mono (by omega))
  | shutdown clock =>
      refine .done ?_
      show View.Room (v.runWork clock).executor.view k
      rw [runWork_view]
      exact hroom.mono (by omega)

theorem Misreads.react_eq {e : ValidatorEvent} (h : v.Misreads e) (hforward : v.fastForward = .ok v) :
    v.react e = .error .clockOutOfRange := by
  obtain ⟨clock, rfl | ⟨now, choice, rfl⟩, hmisreads⟩ := h
  · show (v.intentNow clock >>= _) = _
    unfold intentNow
    rw [hmisreads.intentNow_eq]
    rfl
  · show v.tick now clock choice = _
    unfold tick
    rw [hforward]
    show (v.intentNow clock >>= _) = _
    unfold intentNow
    rw [hmisreads.intentNow_eq]
    rfl

end Event

section Run

open QuorumChain.Core

variable {n : ValidatorCount} [CryptoSuite] {v w : Node n} {e : ValidatorEvent} {k : Nat}

/-- The block that was added is of the own height, as nothing else can have happened meanwhile. -/
theorem added_height (hv : v.core.Tracks) {height : Height}
    (hwork : v.work = some (.done (.added height (.ok ())))) : height = v.own.height := by
  have hadmits := hv.coupled.admits (hv.running hwork)
  rw [show v.core.work = _ from hwork] at hadmits
  exact hadmits.2.2

theorem react_tracks (hv : v.core.Tracks) (e : ValidatorEvent) (h : v.executor.view.Room (k + 9)) :
    Settles (v.Misreads e) (fun r => r.2.executor.view.Room k) (v.react e) :=
  react_settles e (fastForward_eq hv.coupled hv.idle) (fun _ => added_height hv) h

/-- **A happening takes a few changes at most.** -/
theorem room_meet (hv : v.core.Tracks) (x : Happening) (h : v.executor.view.Room (k + 9)) :
    (v.meet x).2.executor.view.Room k := by
  cases x with
  | submitted tx => exact h.mono (by omega)
  | closed => exact h.mono (by omega)
  | event e =>
      show (v.handle e).2.executor.view.Room k
      unfold handle
      split
      · have hreact := react_tracks hv e h
        cases hresult : v.react e with
        | error fault => exact h.mono (by omega)
        | ok next =>
            rw [hresult] at hreact
            cases hreact with
            | done hroom => exact hroom
      · exact h.mono (by omega)

/-- **A run takes nine times as many changes as it is long**, at most. -/
theorem room_after (hv : v.core.Tracks) (run : List Happening)
    (h : v.executor.view.Room (9 * run.length + k)) : (v.after run).executor.view.Room k := by
  induction run generalizing v with
  | nil => exact h.mono (by omega)
  | cons x run ih =>
      refine ih (tracks_meet x hv) (room_meet hv x (h.mono ?_))
      rw [List.length_cons]
      omega

/-- A database stops with its validator, or with a build for which the time of day cannot be read. -/
theorem Part.stopped {out : List Outbound} (h : Part e v out w) :
    w.executor.database.stopped = v.executor.database.stopped ∨
      ∃ clock, (e = .workDone clock ∨ e = .shutdown clock) ∧ clock.read = .error .clockOutOfRange := by
  cases h with
  | hear he hsender hkey hblock hvalid hview =>
      exact .inl ((congrArg (·.2.stopped) hvalid).symm.trans (Database.verifySignature_stopped _ _))
  | doubt hinvalid =>
      exact .inl ((congrArg (·.2.stopped) hinvalid).symm.trans (Database.verifySignature_stopped _ _))
  | @run clock task he hwork =>
      cases hread : clock.read with
      | error fault =>
          cases WallClock.read_error hread
          exact .inr ⟨clock, he, hread⟩
      | ok now =>
          refine .inl ?_
          rw [Executor.run_eq]
          exact Database.perform_stopped hread _ task
  | take he hwork h =>
      cases h <;> exact .inl rfl
  | _ => exact .inl rfl

theorem Parts.stopped {out : List Outbound} (h : Parts e v out w) :
    w.executor.database.stopped = v.executor.database.stopped ∨
      ∃ clock, (e = .workDone clock ∨ e = .shutdown clock) ∧ clock.read = .error .clockOutOfRange := by
  induction h with
  | none => exact .inl rfl
  | snoc _ hpart ih =>
      rcases hpart.stopped with hlast | hlate
      · rcases ih with hbefore | hlate
        · exact .inl (hlast.trans hbefore)
        · exact .inr hlate
      · exact .inr hlate

/-- The database of a running validator has stopped only with a build. -/
theorem stopped_after (hv : v.executor.database.stopped = false) (run : List Happening)
    (hrunning : (v.after run).running = true) (hstopped : (v.after run).executor.database.stopped = true) :
    ∃ clock, .event (.workDone clock) ∈ run ∧ clock.read = .error .clockOutOfRange := by
  induction run using List.reverseRecOn with
  | nil => exact nomatch hv.symm.trans hstopped
  | append_singleton run x ih =>
      have hnext : v.after (run ++ [x]) = ((v.after run).meet x).2 := after_append v run [x]
      rw [hnext] at hrunning hstopped
      have hbefore : (v.after run).running = true := by
        by_contra hhalted
        rw [(meet_stopped x (Bool.eq_false_iff.mpr hhalted)).1] at hrunning
        cases hrunning
      have hearlier : (v.after run).executor.database.stopped = true →
          ∃ clock, .event (.workDone clock) ∈ run ++ [x] ∧ clock.read = .error .clockOutOfRange := by
        intro hstopped
        obtain ⟨clock, hmem, hread⟩ := ih hbefore hstopped
        exact ⟨clock, List.mem_append_left _ hmem, hread⟩
      cases x with
      | submitted tx => exact hearlier hstopped
      | closed => exact hearlier hstopped
      | event e =>
          change ((v.after run).handle e).2.running = true at hrunning
          change ((v.after run).handle e).2.executor.database.stopped = true at hstopped
          rcases handle_parts e hbefore with ⟨sent, u, hparts, hhandle⟩ | hhandle
          · rw [hhandle] at hrunning hstopped
            have hu : u.executor.database.stopped = true := by
              cases e with
              | shutdown clock => cases hrunning
              | _ => exact hstopped
            rcases hparts.stopped with hsame | ⟨clock, rfl | rfl, hread⟩
            · exact hearlier (hsame.symm.trans hu)
            · exact ⟨clock, by simp, hread⟩
            · cases hrunning
          · rw [hhandle] at hrunning
            cases hrunning

/-- An event that has a next state stops a validator only by shutting it down. -/
theorem running_react {out : List Outbound} (hv : v.core.Coupled) (hrunning : v.running = true)
    (he : ∀ clock, e ≠ .shutdown clock) (h : v.react e = .ok (out, w)) : w.running = true := by
  obtain ⟨c, hpath, hc | ⟨⟨clock, rfl⟩, _⟩⟩ := react_path h
  · show w.core.running = true
    rw [hc]
    exact (hv.path hrunning hpath).2
  · exact absurd rfl (he clock)

/-- **A validator whose events have next states runs until it is shut down.** -/
theorem running_after (hv : v.core.Coupled) (hrunning : v.running = true) (run : List Happening)
    (hreact : ∀ front e back, run = front ++ .event e :: back → ∃ next, (v.after front).react e = .ok next)
    (hshutdown : ∀ clock, .event (.shutdown clock) ∉ run) : (v.after run).running = true := by
  induction run using List.reverseRecOn with
  | nil => exact hrunning
  | append_singleton run x ih =>
      have hbefore : (v.after run).running = true := by
        refine ih (fun front e back hsplit => ?_) fun clock hmem => ?_
        · refine hreact front e (back ++ [x]) ?_
          rw [hsplit, List.append_assoc]
          rfl
        · exact hshutdown clock (List.mem_append_left _ hmem)
      rw [after_append]
      cases x with
      | submitted tx => exact hbefore
      | closed => exact hbefore
      | event e =>
          obtain ⟨⟨out, next⟩, hnext⟩ := hreact run e [] rfl
          show ((v.after run).handle e).2.running = true
          rw [handle, if_pos hbefore, hnext]
          refine running_react (coupled_after hv run) hbefore (fun clock heq => ?_) hnext
          exact hshutdown clock (by rw [heq]; simp)

end Run

section Start

variable [CryptoSuite] {config : Config} {roster : Roster} {me : PeerIndex} {l : Ledger}
  {policy : BuildPolicy} {clock : WallClock} {now : Instant} {v : Node roster.size}

theorem room_start {k : Nat} (hl : l.Ordered)
    (hstart : Validator.start config roster me l policy clock now = .ok (.ok v))
    (hblocks : l.blocks.length + k < 2 ^ 64) (hserial : v.own.serial.number + k < 2 ^ 64) :
    v.executor.view.Room k := by
  obtain ⟨next, serial, view, hlevel, hview, hcore⟩ := start_core hl hstart
  have heq : v.executor.view = view := congrArg Core.view hcore
  have hown := (View.start_ok hview).2.1
  rw [own, heq, hown] at hserial
  rw [heq]
  exact .start hview (hlevel ▸ hblocks) hserial

/-- In a run that is not too long for any, no event is without a next state but one at which a block is to
be built by the time of day, and that cannot be read. The same is so of the database, and the count of
derivations with too many steps stays in range. -/
theorem fails_only_by_clock (hl : l.Ordered) (hblocks : l.blocks.length < 2 ^ 60)
    (hstart : Validator.start config roster me l policy clock now = .ok (.ok v))
    (hserial : v.own.serial.number < 2 ^ 62) (run : List Happening) (hrun : run.length < 2 ^ 60) :
    (∀ e fault, (v.after run).react e = .error fault ↔
      fault = .clockOutOfRange ∧ (v.after run).Misreads e) ∧
    ((v.after run).running = true → (v.after run).executor.database.stopped = true →
      ∃ clock, .event (.workDone clock) ∈ run ∧ clock.read = .error .clockOutOfRange) ∧
    (v.after run).executor.view.capHits < 2 ^ 64 := by
  obtain ⟨_, _, _, _, _, hcore⟩ := start_core hl hstart
  have hv : v.core.Tracks := .ofRunning (coupled_start hl hstart) (congrArg Core.running hcore)
  have hroom : (v.after run).executor.view.Room 9 := by
    refine room_after hv run (room_start hl hstart ?_ ?_)
    · omega
    · omega
  have htracks := tracks_after hv run
  refine ⟨fun e fault => ⟨fun hfault => ?_, ?_⟩, fun hrunning hstopped => ?_, ?_⟩
  · have hreact := react_tracks (k := 0) htracks e hroom
    rw [hfault] at hreact
    exact hreact.error_eq
  · rintro ⟨rfl, hmisreads⟩
    exact hmisreads.react_eq (fastForward_eq htracks.coupled htracks.idle)
  · refine stopped_after ?_ run hrunning hstopped
    exact congrArg (·.database.stopped) hcore
  · exact (hroom.mono (Nat.zero_le 9)).hits

/-- **Nothing that a peer can do stops a validator.** In a run that is not too long for any, with a system
clock that can be read, every event has a next state, whatever it says and whoever says it. The validator
runs until it is shut down, and its database with it, and the count of derivations with too many steps stays
in range. -/
theorem survives_peers (hl : l.Ordered) (hblocks : l.blocks.length < 2 ^ 60)
    (hstart : Validator.start config roster me l policy clock now = .ok (.ok v))
    (hserial : v.own.serial.number < 2 ^ 62) (run : List Happening) (hrun : run.length < 2 ^ 60)
    (hclock : ∀ e, .event e ∈ run → e.IsTimely) :
    (∀ e, e.IsTimely → ∃ next, (v.after run).react e = .ok next) ∧
    ((v.after run).running = true ∨ ∃ clock, .event (.shutdown clock) ∈ run) ∧
    ((v.after run).running = true → (v.after run).executor.database.stopped = false) ∧
    (v.after run).executor.view.capHits < 2 ^ 64 := by
  have hreact : ∀ (front : List Happening) (e : ValidatorEvent), front.length < 2 ^ 60 → e.IsTimely →
      ∃ next, (v.after front).react e = .ok next := by
    intro front e hfront he
    cases hnext : (v.after front).react e with
    | ok next => exact ⟨next, rfl⟩
    | error fault =>
        have hfails := (fails_only_by_clock hl hblocks hstart hserial front hfront).1 e fault
        exact absurd he (hfails.mp hnext).2.not_isTimely
  obtain ⟨_, hstops, hhits⟩ := fails_only_by_clock hl hblocks hstart hserial run hrun
  refine ⟨fun e he => hreact run e hrun he, ?_, fun hrunning => ?_, hhits⟩
  · by_cases hshutdown : ∃ clock, .event (.shutdown clock) ∈ run
    · exact .inr hshutdown
    · obtain ⟨_, _, _, _, _, hcore⟩ := start_core hl hstart
      refine .inl (running_after (coupled_start hl hstart) (congrArg Core.running hcore) run ?_
        (not_exists.mp hshutdown))
      rintro front e back rfl
      rw [List.length_append] at hrun
      exact hreact front e (by omega) (hclock e (by simp))
  · rw [← Bool.not_eq_true]
    intro hstopped
    obtain ⟨clock, hmem, hread⟩ := hstops hrunning hstopped
    exact WallClock.IsReadable.read_ne_error (hclock _ hmem) _ hread

end Start

end Validator

section Quartet

local instance survivingSuite : CryptoSuite := plainSuite

/-- Validator 1, which builds blocks by time. -/
def pacedStart : Except Fault (Except ValidatorError (Node quartet)) :=
  Validator.start {} (plainRoster quartet) (quartet.indexOf 1) (plainLedger (n := quartet) 1)
    (.paced (.start {} none)) ⟨0⟩ .origin

/-- Validators 0 and 2 want the first round to end as validator 1 does, whose turn it is then. -/
def turnRun : List Happening :=
  [.event .revolt,
    heard 0 (.status ⟨.zero, .zero, .waitBlock, none, true, .ofNatClamped 1⟩),
    heard 2 (.status ⟨.zero, .zero, .waitBlock, none, true, .ofNatClamped 1⟩)]

/-- Validator 1 gets through a status of the last height, round and serial that there are, and after that
it is to build. -/
theorem survives_peers_turn :
    ∃ v, pacedStart = .ok (.ok v) ∧ (v.after turnRun).running = true ∧
      (∃ next, (v.after turnRun).react
        (.message (quartet.indexOf 0) (.status ⟨.last, .last, .prepared, none, true, .last⟩)) = .ok next) ∧
      ∃ next, (v.after turnRun).react (.intentWanted ⟨1⟩) = .ok next := by
  obtain ⟨v, hstart, hserial⟩ := exists_started (x := pacedStart)
    (P := fun v => v.own.serial.number < 2 ^ 62) (by decide +kernel)
  have hclock : ∀ e, .event e ∈ turnRun → e.IsTimely := by
    simp [turnRun, heard, ValidatorEvent.IsTimely]
  have hshutdown : ¬ ∃ clock, .event (.shutdown clock) ∈ turnRun := by
    simp [turnRun, heard]
  obtain ⟨hreact, hrunning, _⟩ := Validator.survives_peers (fun _ _ h => by cases h) (by decide) hstart hserial
    turnRun (by decide) hclock
  exact ⟨v, hstart, hrunning.resolve_right hshutdown, hreact _ trivial,
    hreact _ (by decide : WallClock.IsReadable ⟨1⟩)⟩

end Quartet

end QuorumChain
