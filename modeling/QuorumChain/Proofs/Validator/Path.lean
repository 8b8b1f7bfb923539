import QuorumChain.Proofs.Validator.Part

/-! What a validator on a ledger does at an event is a path of steps, possibly with a halt at its end. -/

namespace QuorumChain

theorem Executor.Completes.takes {n : ValidatorCount} [CryptoSuite]
    {x x' : Executor n Ledger StagedBlock SignatureCollector} {result : Completion LedgerError}
    (h : x.Completes result x') :
    Core.Takes x.view x.current result x'.view x'.current ∧ x'.database = x.database ∧
      x'.processing = false := by
  cases h with
  | failed hresult => exact ⟨.failed hresult, rfl, rfl⟩
  | loaded h => exact ⟨.loaded h, rfl, rfl⟩
  | built h => exact ⟨.built h, rfl, rfl⟩
  | added hnext h => exact ⟨.added hnext h, rfl, rfl⟩
  | committed h => exact ⟨.committed h, rfl, rfl⟩

namespace Validator

/-- What a validator starts with: a new view at the first height that its engine has not stored. -/
theorem start_ok {σ β ω ε : Type} [BlockEngine σ β ω ε] {config : Config} {roster : Roster}
    {me : PeerIndex} {engine : σ} {policy : BuildPolicy} {clock : WallClock} {now : Instant}
    {v : Validator roster.size σ β ω ε}
    (h : Validator.start config roster me engine policy clock now = .ok (.ok v)) :
    ∃ (next : Height) (serial : Serial) (view : View roster.size),
      (∀ best, BlockEngine.bestHeight engine = some best → next.number = best.number + 1) ∧
      (BlockEngine.bestHeight engine = none → next = .zero) ∧
      View.start roster.size me next config.recomputeMaxIterations.toNat serial = .ok view ∧
      v = {
        keys := roster.keys
        executor := .start view (.start engine) policy
        work := none
        requestTimer := .start config.intentRetryTimeout
        revoltTimer := .start config.revoltTimeout view.own now
        announcer := .start config.statusResendInterval
        running := true } := by
  unfold Validator.start at h
  extract_lets rest at h
  obtain ⟨next, hsome, hnone, h⟩ : ∃ next : Height,
      (∀ best, BlockEngine.bestHeight engine = some best → next.number = best.number + 1) ∧
      (BlockEngine.bestHeight engine = none → next = .zero) ∧ rest next = .ok (.ok v) := by
    split at h
    next best hbest =>
      obtain ⟨next, hnext, h⟩ := bind_eq_ok.mp h
      refine ⟨next, fun best' hbest' => ?_, fun hnone => ?_, h⟩
      · cases hbest.symm.trans hbest'
        exact Counter.succ_eq_ok.mp hnext
      · cases hbest.symm.trans hnone
    next hnone =>
      refine ⟨.zero, fun best hbest => ?_, fun _ => rfl, h⟩
      cases hnone.symm.trans hbest
  obtain ⟨time, _, h⟩ := bind_eq_ok.mp h
  dsimp only at h
  split at h
  · cases h
  next view hview =>
    cases h
    exact ⟨next, _, view, hsome, hnone, hview, rfl⟩

open QuorumChain.Core

variable {n : ValidatorCount} {v v' : Node n} {e : ValidatorEvent} {out : List Outbound}

theorem mem_request {intent : Intent} {now : Instant} {choice : Nat} {o : Outbound}
    (h : o ∈ (v.request intent now choice).1) :
    ∃ i m, o = .one i m ∧ (i, m) ∈ intent.requests v.core.view.statuses.toList v.me choice := by
  unfold request at h
  dsimp only at h
  split at h
  · obtain ⟨⟨i, m⟩, hmem, rfl⟩ := List.mem_map.mp h
    exact ⟨i, m, rfl, hmem⟩
  · cases h

theorem mem_announce {now : Instant} {o : Outbound} (h : o ∈ (v.announce now).1) :
    o = .all (.status v.own) := by
  unfold announce StatusAnnouncer.update at h
  dsimp only at h
  split at h
  · exact List.mem_singleton.mp h
  · cases h

variable [CryptoSuite]

/-- A part of an event is a step, unless nothing changes that a validator decides by. -/
theorem Part.path (h : Part e v out v') : Path e v.core v'.core := by
  cases h with
  | see hve h => exact .single (.view hve h)
  | jump hidle hbest hge h => exact .single (.jump hidle hbest hge h)
  | hear he hsender hkey hblock hvalid h => exact .single (.hear he hsender hkey hblock hvalid h)
  | doubt hinvalid =>
      rcases Database.verifySignature_cases hinvalid with ⟨_, rfl⟩ | ⟨hvalid, _⟩
      · exact .refl
      · cases hvalid
  | wait _ => exact .refl
  | build hidle hintent _ => exact .single (.issue hidle (.build hintent))
  | commit hidle hintent hcurrent hblock =>
      exact .single (.issue hidle (.commit hintent hcurrent hblock))
  | load hidle hintent => exact .single (.issue hidle (.load hintent))
  | add he hidle hintent hheight => exact .single (.issue hidle (.add he hintent hheight))
  | answer _ _ => exact .refl
  | ask _ _ => exact .refl
  | watch _ _ => exact .refl
  | rise _ _ h => exact .single (.view .revolt h)
  | run he hwork =>
      rw [Executor.run_eq]
      exact .single (.run he hwork rfl)
  | @take result executor he hwork h =>
      obtain ⟨htakes, hdatabase, hidle⟩ := h.takes
      have hcore : ({ v with executor, work := none } : Node n).core =
          { v.core with
            view := executor.view, current := executor.current, processing := false, work := none } := by
        simp only [core, hdatabase, hidle]
      rw [hcore]
      exact .single (.take he hwork htakes)
  | want _ => exact .refl

theorem Parts.path (h : Parts e v out v') : Path e v.core v'.core := by
  induction h with
  | none => exact .refl
  | snoc _ hpart ih => exact ih.trans hpart.path

theorem runWork_path {clock : WallClock} (he : e = .workDone clock ∨ e = .shutdown clock)
    (v : Node n) : Path e v.core (v.runWork clock).core :=
  (runWork_parts he v).path

/-- A tick: what is asked for follows from the intent at some moment of it, and what is told is the
status at its end. -/
theorem tick_path {now : Instant} {clock : WallClock} {choice : Nat}
    (h : v.tick now clock choice = .ok (out, v')) :
    ∃ u : Node n, Path (.tick now clock choice) v.core u.core ∧
      Path (.tick now clock choice) u.core v'.core ∧
      ∀ o ∈ out, o = .all (.status v'.own) ∨ ∃ i m, o = .one i m ∧
        (i, m) ∈ u.core.view.intent.requests u.core.view.statuses.toList u.me choice := by
  obtain ⟨intent, u, u', hu, hintent, hu', rfl, rfl⟩ := tick_parts h
  refine ⟨u, hu.path, hu'.path, fun o ho => ?_⟩
  rcases List.mem_append.mp ho with ho | ho
  · obtain ⟨i, m, rfl, hmem⟩ := mem_request ho
    refine .inr ⟨i, m, rfl, ?_⟩
    rcases hintent with rfl | rfl
    · cases hmem
    · exact hmem
  · have htold : o = .all (.status u'.own) := mem_announce ho
    exact .inl htold

theorem conclude_core (v : Node n) (e : ValidatorEvent) :
    (v.conclude e).2.core = v.core ∨
      (∃ clock, e = .shutdown clock) ∧ (v.conclude e).2.core = v.core.halt := by
  cases e with
  | shutdown clock => exact .inr ⟨⟨clock, rfl⟩, rfl⟩
  | _ => exact .inl rfl

/-- **Whatever a validator does at an event it does step by step.** -/
theorem react_path (h : v.react e = .ok (out, v')) :
    ∃ c, Path e v.core c ∧ (v'.core = c ∨ (∃ clock, e = .shutdown clock) ∧ v'.core = c.halt) := by
  obtain ⟨sent, u, hparts, _, rfl⟩ := react_parts h
  exact ⟨u.core, hparts.path, conclude_core u e⟩

theorem handle_path (e : ValidatorEvent) (hrunning : v.running = true) :
    ∃ c, Path e v.core c ∧ ((v.handle e).2.core = c ∨ (v.handle e).2.core = c.halt) := by
  rcases handle_parts e hrunning with ⟨sent, u, hparts, hhandle⟩ | hhandle
  · rw [hhandle]
    exact ⟨u.core, hparts.path, (conclude_core u e).imp_right And.right⟩
  · rw [hhandle]
    exact ⟨v.core, .refl, .inr rfl⟩

/-- What every step and stopping keep is kept by every event. -/
theorem handle_induction {P : Core n → Prop}
    (hstep : ∀ {c c' : Core n}, P c → c.running = true → Step e c c' → P c')
    (hhalt : ∀ {c : Core n}, P c → P c.halt) (hv : P v.core) : P (v.handle e).2.core := by
  cases hrunning : v.running with
  | false =>
      rw [handle_stopped e hrunning]
      exact hv
  | true =>
      obtain ⟨c, hpath, hc⟩ := handle_path e hrunning
      have hend : P c ∧ c.running = true := by
        clear hc
        induction hpath with
        | refl => exact ⟨hv, hrunning⟩
        | tail _ hs ih => exact ⟨hstep ih.1 ih.2 hs, hs.running_eq.trans ih.2⟩
      rcases hc with hc | hc
      · rw [hc]
        exact hend.1
      · rw [hc]
        exact hhalt hend.1

end Validator

end QuorumChain
