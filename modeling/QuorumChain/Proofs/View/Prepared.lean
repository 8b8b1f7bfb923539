import QuorumChain.Proofs.View.Run

/-! The block that a validator is prepared to commit. Nothing takes it away at its height, and no
signature over it is lost, whatever happens. That is so as well where a fault ends an event halfway. -/

namespace QuorumChain

/-- The view that is left by a change, also if that breaks down. -/
def Change.Leaves {n : ValidatorCount} (c : Change n (View n)) (w : View n) : Prop :=
  c = .ok w ∨ ∃ fault, c = .error ⟨fault, w⟩

namespace View

variable {n : ValidatorCount} {u v w : View n} {b : Breakdown n} {e : ViewEvent}
  {events : List ViewEvent}

/-- The validator is on a greater height, or on the same one and, if it was prepared, still is, with
the same block and no signature less. -/
def Upholds (v w : View n) : Prop :=
  v.own.height < w.own.height ∨
    (w.own.height = v.own.height ∧ (v.own.phase = .prepared →
      w.own.phase = .prepared ∧ w.own.block = v.own.block ∧
        ∀ i : Fin n.total, (v.signatures[i]).isSome = true → (w.signatures[i]).isSome = true))

namespace Upholds

theorem refl (v : View n) : v.Upholds v := .inr ⟨rfl, fun hp => ⟨hp, rfl, fun _ hi => hi⟩⟩

theorem trans (h : u.Upholds v) (h' : v.Upholds w) : u.Upholds w := by
  rcases h with hlt | ⟨heq, hkeeps⟩
  · rcases h' with hlt' | ⟨heq', _⟩
    · exact .inl (Nat.lt_trans hlt hlt')
    · exact .inl (heq' ▸ hlt)
  · rcases h' with hlt' | ⟨heq', hkeeps'⟩
    · exact .inl (heq ▸ hlt')
    · refine .inr ⟨heq'.trans heq, fun hp => ?_⟩
      obtain ⟨hpv, hbv, hsv⟩ := hkeeps hp
      obtain ⟨hpw, hbw, hsw⟩ := hkeeps' hpv
      exact ⟨hpw, hbw.trans hbv, fun i hi => hsw i (hsv i hi)⟩

/-- Only height, phase, block and signatures matter. -/
theorem ofSame (hheight : w.own.height = v.own.height) (hphase : w.own.phase = v.own.phase)
    (hblock : w.own.block = v.own.block) (hslots : w.signatures = v.signatures) : v.Upholds w :=
  .inr ⟨hheight, fun hp => ⟨hphase.trans hp, hblock, fun _ hi => hslots ▸ hi⟩⟩

/-- Anything may happen to a block that is not prepared. -/
theorem ofUnprepared (hheight : w.own.height = v.own.height) (hp : v.own.phase ≠ .prepared) :
    v.Upholds w :=
  .inr ⟨hheight, fun hp' => absurd hp' hp⟩

theorem continues (h : v.Continues w) : v.Upholds w :=
  .inr ⟨h.height_eq, fun hp =>
    ⟨(h.prepared hp).1, (h.prepared hp).2.1, fun _ hi => (h.prepared hp).2.2 ▸ hi⟩⟩

theorem onHeight {height : Height} {serial : Serial} (h : v.own.height.next = some height) :
    v.Upholds (v.onHeight height serial) := by
  have hnumber := Counter.next_eq_some.mp h
  refine .inl ?_
  rw [own_onHeight, Counter.lt_def]
  show v.own.height.number < height.number
  omega

/-- **Every effect leaves a prepared block alone.** A block that is received or built is asked for only
by a validator without a block. -/
theorem effect (hv : v.Coherent) (h : Effect v e w) : v.Upholds w := by
  have hwaits : v.own.phase = .waitBlock → v.own.phase ≠ .prepared := fun hp => by simp [hp]
  have hfits := hv.intent_fits
  cases h with
  | status hpeer hme hnew =>
      refine ofSame ?_ ?_ ?_ rfl
      · rw [own_setStatus hme]
      · rw [own_setStatus hme]
      · rw [own_setStatus hme]
  | received hi hserial =>
      rw [hi] at hfits
      exact ofUnprepared (by simp) (hwaits hfits)
  | advanced hheight hserial => exact onHeight hheight
  | committed hb hheight hserial => exact onHeight hheight
  | built hi hm hserial =>
      rw [hi] at hfits
      exact ofUnprepared (by simp) (hwaits hfits)
  | @signature peer i id s hpeer hp hb =>
      refine .inr ⟨rfl, fun _ => ⟨hp, rfl, fun j hj => ?_⟩⟩
      simp only [getElem_member, ValidatorCount.update_eq, Vector.getElem_set] at hj ⊢
      split
      · rfl
      · exact hj
  | revolt hserial => exact ofSame (by simp) (by simp) (by simp) rfl
  | fastForward hheight hserial => exact onHeight hheight
  | intentWanted => exact .refl v

/-- **Every event leaves a prepared block alone.** -/
theorem handle {outcome : Outcome} (hv : v.Coherent) (h : v.handle e = .ok (outcome, w)) :
    v.Upholds w := by
  have hboth : v.Upholds w ∧ w.Coherent := by
    refine handle_induction (P := fun w => v.Upholds w ∧ w.Coherent) ?_ ?_ ?_ ⟨.refl v, hv⟩ h
    · exact fun ⟨hup, hcoh⟩ he => ⟨hup.trans (effect hcoh he), hcoh.effect he⟩
    · exact fun ⟨hup, hcoh⟩ _ => ⟨hup, hcoh.withIntent trivial⟩
    · exact fun ⟨hup, hcoh⟩ hrec => ⟨hup.trans (continues (.recompute hrec)), hcoh.recompute hrec⟩
  exact hboth.1

end Upholds

/-! A fault leaves what was changed by then. -/

theorem bump_error (h : v.bump = .error b) : b.view = v := by
  unfold bump at h
  split at h
  · cases h
  · cases h
    rfl

theorem nextRound_error (h : v.nextRound = .error b) : b.view = v := by
  unfold nextRound at h
  split at h
  · cases h
  · cases h
    rfl

theorem nextHeight_error (h : v.nextHeight = .error b) : b.view = v := by
  unfold nextHeight at h
  split at h
  · cases h
  · cases h
    rfl

theorem dropHeldBlock_error (h : v.dropHeldBlock = .error b) : v.Upholds b.view := by
  unfold dropHeldBlock at h
  split at h
  next hp =>
    rw [bump_error (bind_pure_eq_error.mp h)]
    exact .ofUnprepared (by simp) (by simp [hp])
  · cases h

theorem catchUp_error (h : v.catchUp = .error b) : v.Upholds b.view := by
  unfold catchUp at h
  split at h
  · cases h
  · dsimp only at h
    split at h
    · split at h
      · cases h
      · cases h
    · exact dropHeldBlock_error (bind_pure_eq_error.mp h)

theorem endRound_error (h : v.endRound = .error b) : v.Upholds b.view := by
  unfold endRound at h
  split at h
  · cases h
  · rcases bind_eq_error.mp h with h | ⟨u, hu, h⟩
    · exact dropHeldBlock_error h
    · have hdrop := Upholds.continues (.drop hu)
      rcases bind_eq_error.mp h with h | ⟨w, hw, h⟩
      · rw [nextRound_error h]
        exact hdrop.trans (.ofSame (by simp) (by simp) (by simp) rfl)
      · obtain ⟨round, _, rfl⟩ := nextRound_eq_ok.mp hw
        rw [bump_error (bind_pure_eq_error.mp h)]
        exact hdrop.trans (.ofSame (by simp) (by simp) (by simp) rfl)

theorem proceed_error (h : v.proceed = .error b) : v.Upholds b.view := by
  unfold proceed at h
  split at h
  · cases h
  next hp =>
    unfold View.prepare at h
    split at h
    · cases h
    · rw [bump_error (bind_pure_eq_error.mp h)]
      exact .ofUnprepared (by simp) (by simp [hp])
  · cases h

theorem step_error (h : v.step = .error b) : v.Upholds b.view := by
  unfold step at h
  rcases bind_eq_error.mp h with h | ⟨first, _, h⟩
  · split at h
    · cases h
    · exact catchUp_error h
  · cases first with
    | settled => cases h
    | changed u => cases h
    | undecided =>
        rcases bind_eq_error.mp h with h | ⟨second, _, h⟩
        · split at h
          · exact endRound_error h
          · cases h
        · cases second with
          | settled => cases h
          | changed u => cases h
          | undecided => exact proceed_error h

theorem recompute_error (h : v.recompute = .error b) : v.Upholds b.view := by
  unfold recompute at h
  generalize v.cap = steps at h
  induction steps generalizing v with
  | zero => cases h
  | succ k ih =>
      rw [recomputeWithin] at h
      rcases bind_eq_error.mp h with h | ⟨next, hnext, h⟩
      · exact step_error h
      · cases next with
        | none => cases h
        | some u => exact (Upholds.continues (.move (step_changed hnext))).trans (ih h)

theorem advance_error (h : v.advance = .error b) : v.Upholds b.view := by
  rcases bind_eq_error.mp h with h | ⟨u, hu, h⟩
  · rw [nextHeight_error h]
    exact .refl v
  · obtain ⟨height, hheight, rfl⟩ := nextHeight_eq_ok.mp hu
    have hup : v.Upholds (v.setOwn { v.own with height }) := by
      have hnumber := Counter.next_eq_some.mp hheight
      refine .inl ?_
      rw [own_setOwn, Counter.lt_def]
      show v.own.height.number < height.number
      omega
    rcases bind_eq_error.mp h with h | ⟨u, hu, h⟩
    · rw [bump_error h]
      exact hup
    · obtain ⟨serial, _, rfl⟩ := bump_eq_ok.mp hu
      refine Upholds.trans ?_ (recompute_error h)
      simp only [own_setOwn, setOwn_setOwn]
      exact .onHeight hheight

theorem advanceBy_error {count : Nat} (h : v.advanceBy count = .error b) : v.Upholds b.view := by
  induction count generalizing v with
  | zero => cases h
  | succ k ih =>
      rcases bind_eq_error.mp h with h | ⟨u, hu, h⟩
      · exact advance_error h
      · obtain ⟨height, serial, hheight, _, hrec⟩ := advance_eq_ok.mp hu
        exact ((Upholds.onHeight hheight).trans (.continues (.recompute hrec))).trans (ih h)

theorem hold_error {id : BlockId} {signature : CommitSignature} (hp : v.own.phase ≠ .prepared)
    (h : v.hold id signature = .error b) : v.Upholds b.view := by
  rcases bind_eq_error.mp h with h | ⟨u, hu, h⟩
  · rw [bump_error h]
    exact .ofUnprepared (by simp) hp
  · obtain ⟨serial, _, rfl⟩ := bump_eq_ok.mp hu
    refine Upholds.trans ?_ (recompute_error h)
    exact .ofUnprepared (by simp [own, setOwn]) hp

/-- **A fault leaves a prepared block alone.** -/
theorem handle_error (hv : v.Coherent) (h : v.handle e = .error b) : v.Upholds b.view := by
  have hwaits : v.own.phase = .waitBlock → v.own.phase ≠ .prepared := fun hp => by simp [hp]
  have hfits := hv.intent_fits
  cases e with
  | status peer s =>
      change v.onStatus peer s = _ at h
      unfold onStatus at h
      split at h
      · cases h
      next i hpeer =>
        split at h
        · cases h
        next hme =>
          split at h
          · cases h
          next hnew =>
            have heffect := Effect.status hpeer hme (by simpa using hnew)
            exact (Upholds.effect hv heffect).trans (recompute_error (bind_pure_eq_error.mp h))
  | received id signature =>
      change v.onReceived id signature = _ at h
      unfold onReceived at h
      split at h
      next wanted hi =>
        rw [hi] at hfits
        split at h
        · exact hold_error (hwaits hfits) (bind_pure_eq_error.mp h)
        · cases h
      · cases h
  | advanced height =>
      change v.onAdvanced height = _ at h
      unfold onAdvanced at h
      split at h
      · exact advance_error (bind_pure_eq_error.mp h)
      · cases h
  | committed id =>
      change v.onCommitted id = _ at h
      unfold onCommitted at h
      split at h
      · exact advance_error (bind_pure_eq_error.mp h)
      · cases h
  | built id signature =>
      change v.onBuilt id signature = _ at h
      unfold onBuilt at h
      split at h
      · cases h
      next hi =>
        rw [ne_eq, Decidable.not_not] at hi
        rw [hi] at hfits
        split at h
        · cases h
        · exact hold_error (hwaits hfits) (bind_pure_eq_error.mp h)
  | signature peer id signature =>
      change v.onSignature peer id signature = _ at h
      unfold onSignature at h
      split at h
      · cases h
      next i hpeer =>
        split at h
        · cases h
        next hheld =>
          simp only [ne_eq, not_or, Decidable.not_not] at hheld
          have heffect : Effect v (.signature peer id signature) _ :=
            .signature hpeer hheld.1 hheld.2
          exact (Upholds.effect hv heffect).trans (recompute_error (bind_pure_eq_error.mp h))
  | revolt =>
      rcases bind_eq_error.mp h with h | ⟨u, hu, h⟩
      · rw [bump_error h]
        exact .ofSame (by simp) (by simp) (by simp) rfl
      · obtain ⟨serial, _, rfl⟩ := bump_eq_ok.mp hu
        refine Upholds.trans ?_ (recompute_error (bind_pure_eq_error.mp h))
        exact .ofSame (by simp) (by simp) (by simp) rfl
  | fastForward committed =>
      change v.onFastForward committed = _ at h
      unfold onFastForward at h
      split at h
      · cases h
      · split at h
        · cases h
        · exact advanceBy_error (bind_pure_eq_error.mp h)
  | intentWanted =>
      exact recompute_error (bind_pure_eq_error.mp h)

/-- What is left by any events, also if one of them breaks down. -/
theorem Upholds.handleAll (hv : v.Coherent) (h : (v.handleAll events).Leaves w) : v.Upholds w := by
  induction events generalizing v with
  | nil =>
      rcases h with h | ⟨_, h⟩
      · cases h
        exact .refl _
      · cases h
  | cons e rest ih =>
      rcases h with h | ⟨fault, h⟩
      · obtain ⟨outcome, u, hu, hrest⟩ := handleAll_cons.mp h
        exact (Upholds.handle hv hu).trans (ih (hv.handle hu) (.inl hrest))
      · rcases bind_eq_error.mp h with h | ⟨⟨outcome, u⟩, hu, hrest⟩
        · exact handle_error hv h
        · exact (Upholds.handle hv hu).trans (ih (hv.handle hu) (.inr ⟨fault, hrest⟩))

/-- **A prepared block is kept** with all signatures over it until the next height, whatever happens,
however few steps are allowed for deriving the intent, and also if a fault ends an event. -/
theorem prepared_kept {me : PeerIndex} {height : Height} {cap : Nat} {serial : Serial} {r : BlockId}
    {later : List ViewEvent} (hstart : View.start n me height cap serial = .ok u)
    (hrun : u.handleAll events = .ok v) (hp : v.own.phase = .prepared) (hr : v.own.block = some r)
    (hlater : (v.handleAll later).Leaves w) :
    v.own.height < w.own.height ∨
      (w.own.height = v.own.height ∧ w.own.phase = .prepared ∧ w.own.block = some r ∧
        ∀ i : Fin n.total, (v.signatures[i]).isSome = true → (w.signatures[i]).isSome = true) := by
  rcases Upholds.handleAll ((Coherent.start hstart).handleAll hrun) hlater with hlt | ⟨heq, hkeeps⟩
  · exact .inl hlt
  · obtain ⟨hphase, hblock, hslots⟩ := hkeeps hp
    exact .inr ⟨heq, hphase, hblock.trans hr, hslots⟩

section Plain

/-- Validator 3 gets a signature and another block, and then 0 and 1 want the round to end as it does. -/
def revoltRun : List ViewEvent :=
  [.signature (quartet.indexOf 1) plainId ⟨⟨.fill 32 2⟩, ⟨.fill 64 2⟩⟩,
    .received ⟨.fill 32 8⟩ ⟨⟨.fill 32 4⟩, ⟨.fill 64 5⟩⟩, .revolt,
    .status (quartet.indexOf 0) ⟨.zero, .zero, .waitBlock, none, true, .ofNatClamped 7⟩,
    .status (quartet.indexOf 1) ⟨.zero, .zero, .prepared, some plainId, true, .ofNatClamped 7⟩]

theorem prepared_kept_revolt :
    ∃ u v w, View.start quartet (quartet.indexOf 3) .zero 3 .zero = .ok u ∧
      u.handleAll preparedRun = .ok v ∧ v.own.phase = .prepared ∧ v.own.block = some plainId ∧
      v.handleAll revoltRun = .ok w ∧ w.own.round = .ofNatClamped 1 ∧ w.own.phase = .prepared ∧
      w.own.block = some plainId ∧
      ∃ i : Fin quartet.total, i.val = 3 ∧ (v.signatures[i]).isSome = true ∧
        (w.signatures[i]).isSome = true := by
  have hstart : View.start quartet (quartet.indexOf 3) .zero 3 .zero = .ok plainView := rfl
  obtain ⟨v, hrun, hp, hr, hheight, hslot⟩ := exists_ok (x := plainView.handleAll preparedRun)
    (P := fun v => v.own.phase = .prepared ∧ v.own.block = some plainId ∧ v.own.height = .zero ∧
      (v.signatures[(3 : Fin quartet.total)]).isSome = true) (by decide +kernel)
  obtain ⟨w, hboth, hheight', hround⟩ :=
    exists_ok (x := plainView.handleAll (preparedRun ++ revoltRun))
      (P := fun w => w.own.height = .zero ∧ w.own.round = .ofNatClamped 1) (by decide +kernel)
  obtain ⟨_, hrun', hlater⟩ := handleAll_append.mp hboth
  cases hrun.symm.trans hrun'
  rcases prepared_kept hstart hrun hp hr (.inl hlater) with hlt | ⟨_, hphase, hblock, hslots⟩
  · rw [hheight, hheight'] at hlt
    exact absurd hlt (by decide)
  · exact ⟨plainView, v, w, hstart, hrun, hp, hr, hlater, hround, hphase, hblock, 3, rfl, hslot,
      hslots 3 hslot⟩

end Plain

end View

end QuorumChain
