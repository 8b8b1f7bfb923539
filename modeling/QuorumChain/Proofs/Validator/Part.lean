import QuorumChain.Proofs.Validator.Step

/-! The parts that an event of a validator is made of, whatever its engine does: the messages that are sent
at each of them, and what becomes of the timers and of the build policy. What every part keeps is kept by
every event. -/

namespace QuorumChain

namespace Executor

variable {n : ValidatorCount} {σ β ω ε : Type} {x x' : Executor n σ β ω}

theorem ite_current (x : Executor n σ β ω) (p : Prop) [Decidable p] (b : Option Block) :
    (if p then { x with current := b } else x) = { x with current := if p then b else x.current } := by
  split <;> rfl

theorem handleView_eq_ok {e : ViewEvent} {outcome : Outcome} :
    x.handleView e = .ok (outcome, x') ↔
      ∃ view, x.view.handle e = .ok (outcome, view) ∧ x' = { x with view } := by
  simp only [handleView, bind_eq_ok, Change.toFault_eq_ok, pure_eq_ok, Prod.exists, Prod.mk.injEq]
  constructor
  · rintro ⟨_, view, h, rfl, rfl⟩
    exact ⟨view, h, rfl⟩
  · rintro ⟨view, h, rfl⟩
    exact ⟨outcome, view, h, rfl, rfl⟩

theorem viewIntent_eq_ok {intent : Intent} :
    x.viewIntent = .ok (intent, x') ↔
      ∃ outcome view, x.view.handle .intentWanted = .ok (outcome, view) ∧ x' = { x with view } ∧
        intent = view.intent := by
  simp only [viewIntent, bind_eq_ok, handleView_eq_ok, pure_eq_ok, Prod.exists, Prod.mk.injEq]
  constructor
  · rintro ⟨outcome, _, ⟨view, h, rfl⟩, rfl, rfl⟩
    exact ⟨outcome, view, h, rfl, rfl⟩
  · rintro ⟨outcome, view, h, rfl, rfl⟩
    exact ⟨outcome, _, ⟨view, h, rfl⟩, rfl, rfl⟩

theorem takeCommitted_cases {height : Height} {b : WitnessedBlock} {task : Option Task}
    (h : x.takeCommitted height b = .ok (task, x')) :
    ∃ outcome view, x.view.handle .intentWanted = .ok (outcome, view) ∧
      ((task = none ∧ x' = { x with view }) ∨
        (x.processing = false ∧ view.intent = .fetchBlockAtHeight height ∧ b.block.height = height ∧
          task = some (.add height b) ∧ x' = { x with view, processing := true })) := by
  unfold takeCommitted at h
  obtain ⟨⟨intent, y⟩, hintent, h⟩ := bind_eq_ok.mp h
  obtain ⟨outcome, view, hview, rfl, rfl⟩ := viewIntent_eq_ok.mp hintent
  refine ⟨outcome, view, hview, ?_⟩
  dsimp only at h
  split at h
  next hwanted =>
    cases hbusy : x.processing with
    | true =>
        simp only [issue, hbusy, if_true, pure_eq_ok] at h
        cases h
        exact .inl ⟨rfl, by rw [← hbusy]⟩
    | false =>
        simp only [issue, hbusy, pure_eq_ok] at h
        cases h
        exact .inr ⟨rfl, hwanted.1, hwanted.2, rfl, rfl⟩
  · cases h
    exact .inl ⟨rfl, rfl⟩

theorem run_view [BlockEngine σ β ω ε] (x : Executor n σ β ω) (clock : WallClock) (task : Task) :
    (x.run clock task).2.view = x.view := by
  cases task with
  | load b => rfl
  | add height b => rfl
  | build => rfl
  | commit b signatures => rfl

variable [CryptoSuite]

theorem takeProposal_cases {b : Block} {task : Option Task}
    (h : x.takeProposal b = .ok (task, x')) :
    ∃ outcome view, x.view.handle .intentWanted = .ok (outcome, view) ∧
      ((task = none ∧ x' = { x with view }) ∨
        (x.processing = false ∧ view.intent = .fetchUnfinishedBlock b.id ∧ task = some (.load b) ∧
          x' = { x with view, processing := true })) := by
  unfold takeProposal at h
  obtain ⟨⟨intent, y⟩, hintent, h⟩ := bind_eq_ok.mp h
  obtain ⟨outcome, view, hview, rfl, rfl⟩ := viewIntent_eq_ok.mp hintent
  refine ⟨outcome, view, hview, ?_⟩
  dsimp only at h
  split at h
  next hwanted =>
    cases hbusy : x.processing with
    | true =>
        simp only [issue, hbusy, if_true, pure_eq_ok] at h
        cases h
        exact .inl ⟨rfl, by rw [← hbusy]⟩
    | false =>
        simp only [issue, hbusy, pure_eq_ok] at h
        cases h
        exact .inr ⟨rfl, hwanted, rfl, rfl⟩
  · cases h
    exact .inl ⟨rfl, rfl⟩

/-- What taking the result of a task makes of the view, of the block at hand and of the build policy. -/
inductive Completes (x : Executor n σ β ω) : Completion ε → Executor n σ β ω → Prop
  | failed {result : Completion ε} (hresult : result.IsFailure) :
      Completes x result { x with processing := false }
  | loaded {b : Block} {own : CommitSignature} {outcome : Outcome} {view : View n}
      (h : x.view.handle (.received b.id own) = .ok (outcome, view)) :
      Completes x (.loaded b (.ok own)) { x with
        view, processing := false, current := if outcome = .accepted then some b else x.current }
  | built {b : Block} {own : CommitSignature} {outcome : Outcome} {view : View n}
      (h : x.view.handle (.built b.id own) = .ok (outcome, view)) :
      Completes x (.built (.ok (b, own))) { x with
        view, processing := false, current := if outcome = .accepted then some b else x.current }
  | added {height next : Height} {outcome : Outcome} {view : View n}
      (hnext : next.number = height.number + 1)
      (h : x.view.handle (.advanced next) = .ok (outcome, view)) :
      Completes x (.added height (.ok ())) { x with
        view, processing := false, current := if outcome = .accepted then none else x.current }
  | committed {b : Block} {outcome : Outcome} {view : View n}
      (h : x.view.handle (.committed b.id) = .ok (outcome, view)) :
      Completes x (.committed b (.ok ())) { x with
        view, processing := false, current := none
        policy := if outcome = .accepted then x.policy.committed b else x.policy }

/-- What holds between the own statuses before and after every event of a view holds between those before and
after taking a result. -/
theorem Completes.relates {R : Status → Status → Prop} {result : Completion ε} (hrefl : ∀ s, R s s)
    (hview : ∀ {x y : View n} {ve : ViewEvent} {outcome : Outcome}, x.handle ve = .ok (outcome, y) → R x.own y.own)
    (h : x.Completes result x') : R x.view.own x'.view.own := by
  cases h with
  | failed _ => exact hrefl _
  | loaded h => exact hview h
  | built h => exact hview h
  | added _ h => exact hview h
  | committed h => exact hview h

theorem complete_cases {result : Completion ε} (h : x.complete result = .ok x') :
    x.Completes result x' := by
  unfold complete at h
  dsimp only at h
  split at h
  next b own =>
    obtain ⟨⟨outcome, y⟩, hview, h⟩ := bind_eq_ok.mp h
    obtain ⟨view, hhandle, rfl⟩ := handleView_eq_ok.mp hview
    rw [ite_current] at h
    cases h
    exact .loaded hhandle
  next height =>
    obtain ⟨next, hnext, h⟩ := bind_eq_ok.mp h
    obtain ⟨⟨outcome, y⟩, hview, h⟩ := bind_eq_ok.mp h
    obtain ⟨view, hhandle, rfl⟩ := handleView_eq_ok.mp hview
    rw [ite_current] at h
    cases h
    exact .added (Counter.succ_eq_ok.mp hnext) hhandle
  next b own =>
    obtain ⟨⟨outcome, y⟩, hview, h⟩ := bind_eq_ok.mp h
    obtain ⟨view, hhandle, rfl⟩ := handleView_eq_ok.mp hview
    rw [ite_current] at h
    cases h
    exact .built hhandle
  next b =>
    obtain ⟨⟨outcome, y⟩, hview, h⟩ := bind_eq_ok.mp h
    obtain ⟨view, hhandle, rfl⟩ := handleView_eq_ok.mp hview
    have hcommitted := Completes.committed (ε := ε) (x := x) hhandle
    cases h
    by_cases hok : outcome = .accepted
    · simp only [if_pos hok] at hcommitted ⊢
      exact hcommitted
    · simp only [if_neg hok] at hcommitted ⊢
      exact hcommitted
  next hloaded hadded hbuilt hcommitted =>
    cases h
    refine .failed ?_
    cases result with
    | loaded b r =>
        cases r with
        | ok own => exact absurd rfl (hloaded b own)
        | error e => exact ⟨e, rfl⟩
    | added height r =>
        cases r with
        | ok u => exact absurd rfl (hadded height)
        | error e => exact ⟨e, rfl⟩
    | built r =>
        cases r with
        | ok made => exact absurd rfl (hbuilt made.1 made.2)
        | error e => exact ⟨e, rfl⟩
    | committed b r =>
        cases r with
        | ok u => exact absurd rfl (hcommitted b)
        | error e => exact ⟨e, rfl⟩

variable [BlockEngine σ β ω ε]

/-- Acting on the intent: nothing while work is under way, and else the intent is derived. A build is
issued if the policy says so, and a commit of the block at hand. -/
theorem update_cases {clock : WallClock} {task : Option Task} (h : x.update clock = .ok (task, x')) :
    (x.processing = true ∧ task = none ∧ x' = x) ∨
      (x.processing = false ∧ ∃ outcome view, x.view.handle .intentWanted = .ok (outcome, view) ∧
        ((task = none ∧ x' = { x with view }) ∨
          (∃ policy, x.policy.shouldBuild clock (BlockEngine.queueSize x.database.engine) =
            .ok (false, policy) ∧ task = none ∧ x' = { x with view, policy }) ∨
          (view.intent = .buildBlock ∧ ∃ policy,
            x.policy.shouldBuild clock (BlockEngine.queueSize x.database.engine) = .ok (true, policy) ∧
            task = some .build ∧ x' = { x with view, policy, processing := true }) ∨
          ∃ b, view.intent = .commitBlock ∧ x.current = some b ∧ view.own.block = some b.id ∧
            task = some (.commit b view.recorded) ∧ x' = { x with view, processing := true })) := by
  unfold update at h
  split at h
  next hbusy =>
    cases h
    exact .inl ⟨hbusy, rfl, rfl⟩
  next hidle =>
    have hidle := Bool.eq_false_iff.mpr hidle
    refine .inr ⟨hidle, ?_⟩
    obtain ⟨⟨intent, y⟩, hintent, h⟩ := bind_eq_ok.mp h
    obtain ⟨outcome, view, hview, rfl, rfl⟩ := viewIntent_eq_ok.mp hintent
    refine ⟨outcome, view, hview, ?_⟩
    dsimp only at h
    split at h
    next hbuild =>
      obtain ⟨⟨due, policy⟩, hpolicy, h⟩ := bind_eq_ok.mp h
      cases due with
      | false =>
          cases h
          exact .inr (.inl ⟨policy, hpolicy, rfl, rfl⟩)
      | true =>
          simp only [issue, hidle, if_true, pure_eq_ok] at h
          cases h
          exact .inr (.inr (.inl ⟨hbuild, policy, hpolicy, rfl, rfl⟩))
    next hcommit =>
      split at h
      next b hb =>
        simp only [issue, hidle, pure_eq_ok] at h
        cases h
        unfold blockToCommit? at hb
        split at hb
        next hcurrent =>
          split at hb
          next hblock =>
            cases hb
            exact .inr (.inr (.inr ⟨b, hcommit, hcurrent, hblock, rfl, rfl⟩))
          · cases hb
        · cases hb
      next =>
        cases h
        exact .inl ⟨rfl, rfl⟩
    next =>
      cases h
      exact .inl ⟨rfl, rfl⟩

/-- Acting on the intent and saying what is left of it. -/
theorem intentNow_cases {clock : WallClock} {intent : Intent} {task : Option Task}
    (h : x.intentNow clock = .ok (intent, task, x')) :
    ∃ y, x.update clock = .ok (task, y) ∧
      ((y.processing = true ∧ intent = .doNothing ∧ x' = y) ∨
        (y.processing = false ∧ y.viewIntent = .ok (intent, x'))) := by
  unfold intentNow at h
  obtain ⟨⟨task', y⟩, hupdate, h⟩ := bind_eq_ok.mp h
  dsimp only at h
  split at h
  next hbusy =>
    cases h
    exact ⟨_, hupdate, .inl ⟨hbusy, rfl, rfl⟩⟩
  next hidle =>
    obtain ⟨⟨intent', z⟩, hintent, h⟩ := bind_eq_ok.mp h
    cases h
    exact ⟨y, hupdate, .inr ⟨Bool.eq_false_iff.mpr hidle, hintent⟩⟩

end Executor

namespace Validator

variable {n : ValidatorCount} {σ β ω ε : Type} [BlockEngine σ β ω ε] [CryptoSuite]
  {u v w : Validator n σ β ω ε} {e : ValidatorEvent}

/-- A part of an event with the messages that are sent at it. -/
inductive Part (e : ValidatorEvent) (v : Validator n σ β ω ε) :
    List Outbound → Validator n σ β ω ε → Prop
  | see {ve : ViewEvent} {outcome : Outcome} {view : View n} (hve : Core.Prompts e ve)
      (h : v.executor.view.handle ve = .ok (outcome, view)) :
      Part e v [] { v with executor := { v.executor with view } }
  | jump {best : Height} {outcome : Outcome} {view : View n} (hidle : v.executor.processing = false)
      (hbest : BlockEngine.bestHeight v.engine = some best) (hge : v.own.height ≤ best)
      (h : v.executor.view.handle (.fastForward best) = .ok (outcome, view)) :
      Part e v [] { v with executor := { v.executor with view } }
  | hear {sender : PeerIndex} {i : Fin n.total} {id : BlockId} {s : CommitSignature}
      {database : Database σ β ω} {outcome : Outcome} {view : View n}
      (he : e = .message sender (.blockSignature id s) ∨ e = .signature sender id s)
      (hsender : n.memberAt? sender = some i) (hkey : v.keys[i] = s.signer)
      (hblock : v.own.block = some id)
      (hvalid : v.executor.database.verifySignature s = (true, database))
      (h : v.executor.view.handle (.signature sender id s) = .ok (outcome, view)) :
      Part e v [] { v with executor := { v.executor with database, view } }
  | doubt {s : CommitSignature} {database : Database σ β ω}
      (hinvalid : v.executor.database.verifySignature s = (false, database)) :
      Part e v [] { v with executor := { v.executor with database } }
  | wait {clock : WallClock} {policy : BuildPolicy}
      (hpolicy : v.executor.policy.shouldBuild clock (BlockEngine.queueSize v.engine) =
        .ok (false, policy)) :
      Part e v [] { v with executor := { v.executor with policy } }
  | build {clock : WallClock} {policy : BuildPolicy} (hidle : v.executor.processing = false)
      (hintent : v.executor.view.intent = .buildBlock)
      (hpolicy : v.executor.policy.shouldBuild clock (BlockEngine.queueSize v.engine) =
        .ok (true, policy)) :
      Part e v [] { v with
        executor := { v.executor with policy, processing := true }, work := some (.issued .build) }
  | commit {b : Block} (hidle : v.executor.processing = false)
      (hintent : v.executor.view.intent = .commitBlock) (hcurrent : v.executor.current = some b)
      (hblock : v.own.block = some b.id) :
      Part e v [] { v with
        executor := { v.executor with processing := true }
        work := some (.issued (.commit b v.executor.view.recorded)) }
  | load {b : Block} (hidle : v.executor.processing = false)
      (hintent : v.executor.view.intent = .fetchUnfinishedBlock b.id) :
      Part e v [] { v with
        executor := { v.executor with processing := true }, work := some (.issued (.load b)) }
  | add {height : Height} {b : WitnessedBlock}
      (he : (∃ sender, e = .message sender (.completeBlock height b)) ∨ e = .committed height b)
      (hidle : v.executor.processing = false)
      (hintent : v.executor.view.intent = .fetchBlockAtHeight height) (hheight : b.block.height = height) :
      Part e v [] { v with
        executor := { v.executor with processing := true }, work := some (.issued (.add height b)) }
  | answer {sender : PeerIndex} {m a : Message} (he : e = .message sender m)
      (ha : v.answer? m = some a) : Part e v [.one sender a] v
  | ask {intent : Intent} {now : Instant} {clock : WallClock} {choice : Nat}
      (he : e = .tick now clock choice)
      (hintent : intent = .doNothing ∨ intent = v.executor.view.intent) :
      Part e v (v.request intent now choice).1 (v.request intent now choice).2
  | watch {now : Instant} {clock : WallClock} {choice : Nat} (he : e = .tick now clock choice)
      (hdue : (v.revoltTimer.update v.own now).1 = false) :
      Part e v [] { v with revoltTimer := (v.revoltTimer.update v.own now).2 }
  | rise {now : Instant} {clock : WallClock} {choice : Nat} {outcome : Outcome} {view : View n}
      (he : e = .tick now clock choice) (hdue : (v.revoltTimer.update v.own now).1 = true)
      (h : v.executor.view.handle .revolt = .ok (outcome, view)) :
      Part e v [] { v with
        executor := { v.executor with view }, revoltTimer := (v.revoltTimer.update v.own now).2 }
  | run {clock : WallClock} {task : Task} (he : e = .workDone clock ∨ e = .shutdown clock)
      (hwork : v.work = some (.issued task)) :
      Part e v [] { v with
        executor := (v.executor.run clock task).2
        work := some (.done (v.executor.run clock task).1) }
  | take {result : Completion ε} {executor : Executor n σ β ω} (he : e = .resultTaken)
      (hwork : v.work = some (.done result)) (h : v.executor.Completes result executor) :
      Part e v [] { v with executor, work := none }
  | want {height : Height} (he : e = .wanted height) : Part e v [] (v.buildUpTo height)

/-- What holds between the own statuses before and after every event of a view holds between those before and
after a part. -/
theorem Part.relates {R : Status → Status → Prop} {out : List Outbound} (hrefl : ∀ s, R s s)
    (hview : ∀ {x y : View n} {ve : ViewEvent} {outcome : Outcome}, x.handle ve = .ok (outcome, y) → R x.own y.own)
    (h : Part e v out w) : R v.own w.own := by
  cases h with
  | see _ h => exact hview h
  | jump _ _ _ h => exact hview h
  | hear _ _ _ _ _ h => exact hview h
  | rise _ _ h => exact hview h
  | @run clock task _ _ =>
      have hview := v.executor.run_view clock task
      show R v.own (v.executor.run clock task).2.view.own
      rw [hview]
      exact hrefl _
  | take _ _ h => exact h.relates hrefl hview
  | _ => exact hrefl _

/-- Parts of one event, one after the other. -/
inductive Parts (e : ValidatorEvent) (v : Validator n σ β ω ε) :
    List Outbound → Validator n σ β ω ε → Prop
  | none : Parts e v [] v
  | snoc {sent out : List Outbound} {u w : Validator n σ β ω ε} (h : Parts e v sent u)
      (hpart : Part e u out w) : Parts e v (sent ++ out) w

namespace Parts

theorem single {out : List Outbound} (h : Part e v out w) : Parts e v out w := .snoc .none h

theorem trans {sent later : List Outbound} (h : Parts e u sent v) (h' : Parts e v later w) :
    Parts e u (sent ++ later) w := by
  induction h' with
  | none =>
      rw [List.append_nil]
      exact h
  | snoc _ hpart ih =>
      rw [← List.append_assoc]
      exact .snoc ih hpart

/-- Two parts at neither of which anything is sent. -/
theorem pair (h : Part e u [] v) (h' : Part e v [] w) : Parts e u [] w := .snoc (.single h) h'

end Parts

theorem handleView_parts {ve : ViewEvent} (hve : Core.Prompts e ve) (h : v.handleView ve = .ok w) :
    Parts e v [] w := by
  obtain ⟨⟨outcome, x⟩, hx, h⟩ := bind_eq_ok.mp h
  obtain ⟨view, hview, rfl⟩ := Executor.handleView_eq_ok.mp hx
  cases h
  exact .single (.see hve hview)

theorem takeProposal_parts {b : Block} (h : v.takeProposal b = .ok w) : Parts e v [] w := by
  obtain ⟨⟨task, x⟩, hx, h⟩ := bind_eq_ok.mp h
  obtain ⟨outcome, view, hview, ⟨rfl, rfl⟩ | ⟨hidle, hintent, rfl, rfl⟩⟩ :=
    Executor.takeProposal_cases hx
  · cases h
    exact .single (.see .refresh hview)
  · cases h
    exact .pair (.see .refresh hview) (.load hidle hintent)

theorem takeCommitted_parts {height : Height} {b : WitnessedBlock}
    (he : (∃ sender, e = .message sender (.completeBlock height b)) ∨ e = .committed height b)
    (h : v.takeCommitted height b = .ok w) : Parts e v [] w := by
  obtain ⟨⟨task, x⟩, hx, h⟩ := bind_eq_ok.mp h
  obtain ⟨outcome, view, hview, ⟨rfl, rfl⟩ | ⟨hidle, hintent, hheight, rfl, rfl⟩⟩ :=
    Executor.takeCommitted_cases hx
  · cases h
    exact .single (.see .refresh hview)
  · cases h
    exact .pair (.see .refresh hview) (.add he hidle hintent hheight)

theorem takeSignature_parts {sender : PeerIndex} {id : BlockId} {s : CommitSignature}
    (he : e = .message sender (.blockSignature id s) ∨ e = .signature sender id s)
    (h : v.takeSignature sender id s = .ok w) : Parts e v [] w := by
  unfold takeSignature at h
  split at h
  next hexpects =>
    unfold expects at hexpects
    split at hexpects
    next i hsender =>
      rw [Bool.and_eq_true, decide_eq_true_iff, decide_eq_true_iff] at hexpects
      rcases hverify : v.executor.database.verifySignature s with ⟨valid, database⟩
      simp only [hverify] at h
      cases valid with
      | true =>
          obtain ⟨⟨outcome, x⟩, hx, h⟩ := bind_eq_ok.mp h
          obtain ⟨view, hview, rfl⟩ := Executor.handleView_eq_ok.mp hx
          cases h
          exact .single (.hear he hsender hexpects.1 hexpects.2 hverify hview)
      | false =>
          cases h
          exact .single (.doubt hverify)
    · cases hexpects
  · cases h
    exact .none

theorem fastForward_parts (h : v.fastForward = .ok w) : Parts e v [] w := by
  unfold fastForward at h
  split at h
  · cases h
    exact .none
  next hidle =>
    split at h
    next best hbest =>
      split at h
      · cases h
        exact .none
      next hge =>
        obtain ⟨⟨outcome, x⟩, hx, h⟩ := bind_eq_ok.mp h
        obtain ⟨view, hview, rfl⟩ := Executor.handleView_eq_ok.mp hx
        cases h
        exact .single (.jump (Bool.eq_false_iff.mpr hidle) hbest (Nat.le_of_not_lt hge) hview)
    · cases h
      exact .none

theorem intentNow_parts {clock : WallClock} {intent : Intent}
    (h : v.intentNow clock = .ok (intent, w)) :
    Parts e v [] w ∧ (intent = .doNothing ∨ intent = w.executor.view.intent) := by
  obtain ⟨⟨intent, task, x⟩, hx, h⟩ := bind_eq_ok.mp h
  cases h
  obtain ⟨y, hupdate, hrest⟩ := Executor.intentNow_cases hx
  -- Acting on the intent comes first, and the intent is derived once more unless work was issued.
  have hparts : Parts e v [] (v.issue task y) := by
    rcases Executor.update_cases hupdate with ⟨_, rfl, rfl⟩ | ⟨hidle, outcome, view, hview, hcase⟩
    · exact .none
    · have hrefresh : Part e v [] { v with executor := { v.executor with view } } := .see .refresh hview
      rcases hcase with ⟨rfl, rfl⟩ | ⟨policy, hpolicy, rfl, rfl⟩ |
        ⟨hbuild, policy, hpolicy, rfl, rfl⟩ | ⟨b, hcommit, hcurrent, hblock, rfl, rfl⟩
      · exact .single hrefresh
      · exact .pair hrefresh (.wait hpolicy)
      · exact .pair hrefresh (.build hidle hbuild hpolicy)
      · exact .pair hrefresh (.commit hidle hcommit hcurrent hblock)
  rcases hrest with ⟨_, rfl, rfl⟩ | ⟨hidle, hintent⟩
  · exact ⟨hparts, .inl rfl⟩
  · obtain ⟨outcome, view, hview, rfl, rfl⟩ := Executor.viewIntent_eq_ok.mp hintent
    cases task with
    | none => exact ⟨.snoc hparts (.see .refresh hview), .inr rfl⟩
    | some t => exact ⟨.snoc hparts (.see .refresh hview), .inr rfl⟩

theorem revoltIfDue_parts {now : Instant} {clock : WallClock} {choice : Nat} (he : e = .tick now clock choice)
    (h : v.revoltIfDue now = .ok w) : Parts e v [] w := by
  unfold revoltIfDue at h
  dsimp only at h
  split at h
  next hdue =>
    obtain ⟨⟨outcome, x⟩, hx, h⟩ := bind_eq_ok.mp h
    obtain ⟨view, hview, rfl⟩ := Executor.handleView_eq_ok.mp hx
    cases h
    exact .single (.rise he hdue hview)
  next hdue =>
    cases h
    exact .single (.watch he (Bool.eq_false_iff.mpr hdue))

theorem runWork_parts {clock : WallClock} (he : e = .workDone clock ∨ e = .shutdown clock)
    (v : Validator n σ β ω ε) : Parts e v [] (v.runWork clock) := by
  unfold runWork
  split
  next task hwork => exact .single (.run he hwork)
  · exact .none

theorem takeResult_parts (he : e = .resultTaken) (h : v.takeResult = .ok w) : Parts e v [] w := by
  unfold takeResult at h
  split at h
  next result hwork =>
    obtain ⟨x, hx, h⟩ := bind_eq_ok.mp h
    cases h
    exact .single (.take he hwork (Executor.complete_cases hx))
  · cases h
    exact .none

theorem learn_parts {sender : PeerIndex} {m : Message} (he : e = .message sender m)
    (h : v.learn sender m = .ok w) : Parts e v [] w := by
  subst he
  cases m with
  | status s => exact handleView_parts .status h
  | unfinishedBlock b => exact takeProposal_parts h
  | completeBlock height b => exact takeCommitted_parts (.inl ⟨sender, rfl⟩) h
  | blockSignature id s => exact takeSignature_parts (.inl rfl) h
  | getUnfinishedBlock id =>
      cases h
      exact .none
  | getBlockAtHeight height =>
      cases h
      exact .none
  | getBlockSignature id =>
      cases h
      exact .none

/-- What an event ends with: a tick with telling the own status, if it is time to, and stopping with
taking no part any more. -/
def conclude (v : Validator n σ β ω ε) : ValidatorEvent → List Outbound × Validator n σ β ω ε
  | .tick now _ _ => v.announce now
  | .shutdown _ => ([], v.halt)
  | _ => ([], v)

/-- A tick acts on the intent, asks for what is left of it, and revolts if it is time to. -/
theorem tick_parts {now : Instant} {clock : WallClock} {choice : Nat} {out : List Outbound}
    (h : v.tick now clock choice = .ok (out, w)) :
    ∃ intent u u', Parts (.tick now clock choice) v [] u ∧
      (intent = .doNothing ∨ intent = u.executor.view.intent) ∧
      Parts (.tick now clock choice) (u.request intent now choice).2 [] u' ∧
      out = (u.request intent now choice).1 ++ (u'.announce now).1 ∧ w = (u'.announce now).2 := by
  obtain ⟨v₁, h₁, h⟩ := bind_eq_ok.mp h
  obtain ⟨⟨intent, v₂⟩, h₂, h⟩ := bind_eq_ok.mp h
  obtain ⟨v₃, h₃, h⟩ := bind_eq_ok.mp h
  obtain ⟨hparts, hintent⟩ := intentNow_parts h₂
  have hend : (v₂.request intent now choice).1 ++ (v₃.announce now).1 = out ∧
      (v₃.announce now).2 = w := Prod.mk.inj (Except.ok.inj h)
  exact ⟨intent, v₂, v₃, (fastForward_parts h₁).trans hparts, hintent, revoltIfDue_parts rfl h₃,
    hend.1.symm, hend.2.symm⟩

/-- **Whatever a validator does at an event it does part by part.** -/
theorem react_parts {out : List Outbound} (h : v.react e = .ok (out, w)) :
    ∃ sent u, Parts e v sent u ∧ out = sent ++ (u.conclude e).1 ∧ w = (u.conclude e).2 := by
  have hquiet : ∀ {u : Validator n σ β ω ε}, Parts e v [] u → u.conclude e = ([], u) →
      ∃ sent u', Parts e v sent u' ∧ ([] : List Outbound) = sent ++ (u'.conclude e).1 ∧
        u = (u'.conclude e).2 := by
    intro u hu hconclude
    exact ⟨[], u, hu, by rw [hconclude]; rfl, by rw [hconclude]⟩
  cases e with
  | tick now clock choice =>
      obtain ⟨intent, u, u', hu, hintent, hu', rfl, rfl⟩ := tick_parts h
      refine ⟨_, u', (hu.snoc (.ask rfl hintent)).trans hu', ?_, rfl⟩
      rw [List.nil_append, List.append_nil]
      rfl
  | message sender m =>
      change v.receive sender m = .ok (out, w) at h
      unfold receive at h
      split at h
      · cases h
        exact hquiet .none rfl
      · obtain ⟨u, hu, h⟩ := bind_eq_ok.mp h
        cases h
        have hlearn := learn_parts rfl hu
        cases ha : v.answer? m with
        | none => exact hquiet hlearn rfl
        | some a => exact ⟨_, _, (Parts.single (.answer rfl ha)).trans hlearn, rfl, rfl⟩
  | proposal b =>
      obtain ⟨u, hu, h⟩ := bind_eq_ok.mp h
      cases h
      exact hquiet (takeProposal_parts hu) rfl
  | committed height b =>
      obtain ⟨u, hu, h⟩ := bind_eq_ok.mp h
      cases h
      exact hquiet (takeCommitted_parts (.inr rfl) hu) rfl
  | signature sender id s =>
      obtain ⟨u, hu, h⟩ := bind_eq_ok.mp h
      cases h
      exact hquiet (takeSignature_parts (.inr rfl) hu) rfl
  | revolt =>
      obtain ⟨u, hu, h⟩ := bind_eq_ok.mp h
      cases h
      exact hquiet (handleView_parts .revolt hu) rfl
  | intentWanted clock =>
      obtain ⟨⟨intent, u⟩, hu, h⟩ := bind_eq_ok.mp h
      cases h
      exact hquiet (intentNow_parts hu).1 rfl
  | workDone clock =>
      cases h
      exact hquiet (runWork_parts (.inl rfl) v) rfl
  | resultTaken =>
      obtain ⟨u, hu, h⟩ := bind_eq_ok.mp h
      cases h
      exact hquiet (takeResult_parts rfl hu) rfl
  | wanted height =>
      cases h
      exact hquiet (.single (.want rfl)) rfl
  | shutdown clock =>
      cases h
      exact ⟨[], _, runWork_parts (.inr rfl) v, rfl, rfl⟩

theorem handle_stopped (e : ValidatorEvent) (hstopped : v.running = false) : v.handle e = ([], v) := by
  unfold handle
  rw [hstopped]
  rfl

/-- An event of a running validator is made of parts, or the validator halts in the state it was in. -/
theorem handle_parts (e : ValidatorEvent) (hrunning : v.running = true) :
    (∃ sent u, Parts e v sent u ∧ v.handle e = (sent ++ (u.conclude e).1, (u.conclude e).2)) ∨
      v.handle e = ([], v.halt) := by
  unfold handle
  rw [if_pos hrunning]
  cases hreact : v.react e with
  | error fault => exact .inr rfl
  | ok next =>
      obtain ⟨out, w⟩ := next
      obtain ⟨sent, u, hparts, rfl, rfl⟩ := react_parts hreact
      exact .inl ⟨sent, u, hparts, rfl⟩

end Validator

end QuorumChain
