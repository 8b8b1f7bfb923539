import QuorumChain.Proofs.View.Basic

/-! What a step of deriving the intent can do. Each step is one of the moves below, so that what all
moves keep is kept by deriving the intent, whatever the cap on the number of steps. -/

namespace QuorumChain.View

variable {n : ValidatorCount} {v w : View n}

/-- A step that changes something. -/
inductive Move (v : View n) : View n → Prop
  | resync {height : Height} (hp : v.own.phase ≠ .prepared) (hb : v.isBehind = true)
      (hi : v.intent = .fetchBlockAtHeight height) :
      Move v (v.withIntent (.fetchBlockAtHeight v.own.height))
  | fallBehind {w : View n} (hp : v.own.phase ≠ .prepared) (hb : v.isBehind = true)
      (hw : v.dropHeldBlock = .ok w) : Move v (w.withIntent (.fetchBlockAtHeight v.own.height))
  | rotate {w : View n} {round : Round} {serial : Serial} (hr : v.own.revolting = true)
      (hq : v.quorum ≤ v.count (supportsRevolt v.own)) (hw : v.dropHeldBlock = .ok w)
      (hround : w.own.round.next = some round) (hserial : w.own.serial.next = some serial) :
      Move v (w.setOwn { w.own with revolting := false, round, serial })
  | build (hp : v.own.phase = .waitBlock) (hm : v.isPrimary = true) : Move v (v.withIntent .buildBlock)
  | fetch {id : BlockId} (hp : v.own.phase = .waitBlock) (hm : v.isPrimary = false)
      (hid : v.statuses[v.primary].block = some id)
      (hh : v.statuses[v.primary].height = v.own.height) :
      Move v (v.withIntent (.fetchUnfinishedBlock id))
  | rest (hp : v.own.phase ≠ .haveBlock) : Move v (v.withIntent .doNothing)
  | prepare {serial : Serial} (hp : v.own.phase = .haveBlock)
      (hq : v.quorum ≤ v.count (holdsSame v.own)) (hserial : v.own.serial.next = some serial) :
      Move v (v.setOwn { v.own with phase := .prepared, serial })
  | decide (hp : v.own.phase = .prepared) (hq : v.quorum ≤ v.recorded.length) :
      Move v (v.withIntent .commitBlock)
  | ask {id : BlockId} (hp : v.own.phase = .prepared) (hid : v.own.block = some id)
      (hne : (v.signersToAsk id).isEmpty = false) :
      Move v (v.withIntent (.fetchCommitSignature id (v.signersToAsk id)))

theorem changeIntent?_eq_some {i : Intent} (h : v.changeIntent? i = some w) : w = v.withIntent i := by
  unfold changeIntent? at h
  split at h
  · cases h
  · exact (Option.some.inj h).symm

theorem catchUp_changed (hp : v.own.phase ≠ .prepared) (h : v.catchUp = .ok (.changed w)) :
    Move v w := by
  unfold catchUp at h
  cases hb : v.isBehind with
  | false =>
      rw [hb] at h
      cases h
  | true =>
      simp only [hb, Bool.not_true, Bool.false_eq_true, if_false] at h
      split at h
      next hi =>
        split at h
        · cases h
        · cases h
          exact .resync hp hb hi
      next =>
        simp only [bind_eq_ok, pure_eq_ok, Stage.changed.injEq] at h
        obtain ⟨u, hu, rfl⟩ := h
        exact .fallBehind hp hb hu

theorem endRound_changed (hr : v.own.revolting = true) (h : v.endRound = .ok (.changed w)) :
    Move v w := by
  unfold endRound at h
  split at h
  · cases h
  next hq =>
    simp only [bind_eq_ok, nextRound_eq_ok, bump_eq_ok, own_setOwn, setOwn_setOwn, pure_eq_ok,
      Stage.changed.injEq] at h
    obtain ⟨u, hu, _, ⟨round, hround, rfl⟩, _, ⟨serial, hserial, rfl⟩, rfl⟩ := h
    rw [own_setOwn] at hserial ⊢
    rw [setOwn_setOwn]
    exact .rotate hr (Nat.le_of_not_lt hq) hu hround hserial

theorem awaitBlock_changed (hp : v.own.phase = .waitBlock) (h : v.awaitBlock = some w) :
    Move v w := by
  have hrest : v.own.phase ≠ .haveBlock := by simp [hp]
  unfold awaitBlock at h
  split at h
  next hm =>
    rw [changeIntent?_eq_some h]
    exact .build hp hm
  next hm =>
    dsimp only at h
    split at h
    next id hid =>
      split at h
      next hh =>
        rw [changeIntent?_eq_some h]
        exact .fetch hp (Bool.eq_false_iff.mpr hm) hid hh
      next =>
        rw [changeIntent?_eq_some h]
        exact .rest hrest
    next =>
      rw [changeIntent?_eq_some h]
      exact .rest hrest

theorem prepare_changed (hp : v.own.phase = .haveBlock) (h : v.prepare = .ok (some w)) :
    Move v w := by
  unfold View.prepare at h
  split at h
  · cases h
  next hq =>
    simp only [bind_eq_ok, bump_eq_ok, own_setOwn, setOwn_setOwn, pure_eq_ok, Option.some.injEq] at h
    obtain ⟨_, ⟨serial, hserial, rfl⟩, rfl⟩ := h
    exact .prepare hp (Nat.le_of_not_lt hq) hserial

theorem collect_changed (hp : v.own.phase = .prepared) (h : v.collect = some w) : Move v w := by
  have hrest : v.own.phase ≠ .haveBlock := by simp [hp]
  unfold collect at h
  split at h
  · cases h
  · split at h
    next hq =>
      rw [← Option.some.inj h]
      exact .decide hp hq
    next =>
      split at h
      next =>
        rw [changeIntent?_eq_some h]
        exact .rest hrest
      next id hid =>
        cases hne : (v.signersToAsk id).isEmpty with
        | true =>
            simp only [hne, if_true] at h
            rw [changeIntent?_eq_some h]
            exact .rest hrest
        | false =>
            simp only [hne, Bool.false_eq_true, if_false] at h
            rw [changeIntent?_eq_some h]
            exact .ask hp hid hne

theorem proceed_changed (h : v.proceed = .ok (some w)) : Move v w := by
  unfold proceed at h
  split at h
  next hp => exact awaitBlock_changed hp (Except.ok.inj h)
  next hp => exact prepare_changed hp h
  next hp => exact collect_changed hp (Except.ok.inj h)

/-- **Every step is a move.** -/
theorem step_changed (h : v.step = .ok (some w)) : Move v w := by
  unfold step at h
  obtain ⟨first, hfirst, h⟩ := bind_eq_ok.mp h
  cases first with
  | settled => cases h
  | changed u =>
      cases h
      split at hfirst
      · cases hfirst
      next hp => exact catchUp_changed hp hfirst
  | undecided =>
      obtain ⟨second, hsecond, h⟩ := bind_eq_ok.mp h
      cases second with
      | settled => cases h
      | changed u =>
          cases h
          split at hsecond
          next hr => exact endRound_changed hr hsecond
          · cases hsecond
      | undecided => exact proceed_changed h

/-! Where every part of a step has an outcome, so has the step. -/

theorem catchUp_total (hdrop : ∃ u, v.dropHeldBlock = .ok u) : ∃ stage, v.catchUp = .ok stage := by
  obtain ⟨u, hu⟩ := hdrop
  unfold catchUp
  rw [hu]
  split
  · exact ⟨_, rfl⟩
  · dsimp only
    split
    · split
      · exact ⟨_, rfl⟩
      · exact ⟨_, rfl⟩
    · exact ⟨_, rfl⟩

theorem step_total (hcatch : ∃ stage, v.catchUp = .ok stage)
    (hround : v.own.revolting = true → ∃ stage, v.endRound = .ok stage)
    (hproceed : ∃ next, v.proceed = .ok next) : ∃ next, v.step = .ok next := by
  have hfirst : ∃ stage, (if v.own.phase = .prepared then pure .undecided else v.catchUp) =
      (.ok stage : Change n (Stage (View n))) := by
    split
    · exact ⟨_, rfl⟩
    · exact hcatch
  have hsecond : ∃ stage, (if v.own.revolting then v.endRound else pure .undecided) =
      (.ok stage : Change n (Stage (View n))) := by
    split
    next hr => exact hround hr
    · exact ⟨_, rfl⟩
  obtain ⟨first, hfirst⟩ := hfirst
  obtain ⟨second, hsecond⟩ := hsecond
  unfold step
  rw [hfirst, hsecond]
  cases first with
  | settled => exact ⟨_, rfl⟩
  | changed u => exact ⟨_, rfl⟩
  | undecided =>
      cases second with
      | settled => exact ⟨_, rfl⟩
      | changed u => exact ⟨_, rfl⟩
      | undecided => exact hproceed

/-- A move changes neither the number of steps that are allowed nor the count of those that were too few. -/
theorem Move.caps_eq (h : Move v w) : w.cap = v.cap ∧ w.capHits = v.capHits := by
  have hdrop : ∀ {u : View n}, v.dropHeldBlock = .ok u → u.cap = v.cap ∧ u.capHits = v.capHits := by
    intro u hu
    rcases dropHeldBlock_eq_ok.mp hu with ⟨_, rfl⟩ | ⟨_, serial, _, rfl⟩
    · exact ⟨rfl, rfl⟩
    · exact ⟨rfl, rfl⟩
  cases h with
  | fallBehind hp hb hw => exact (hdrop hw :)
  | rotate hr hq hw hround hserial => exact (hdrop hw :)
  | _ => exact ⟨rfl, rfl⟩

/-- What every move keeps is kept by deriving the intent. -/
theorem recompute_induction {P : View n → Prop} (hmove : ∀ {v w}, P v → Move v w → P w)
    (hcap : ∀ {v : View n} {hits : Nat}, P v → P { v with capHits := hits }) (hv : P v)
    (h : v.recompute = .ok w) : P w := by
  unfold recompute at h
  generalize v.cap = steps at h
  induction steps generalizing v with
  | zero =>
      cases h
      exact hcap hv
  | succ k ih =>
      rw [recomputeWithin] at h
      obtain ⟨next, hnext, h⟩ := bind_eq_ok.mp h
      cases next with
      | none =>
          cases h
          exact hv
      | some u => exact ih (hmove hv (step_changed hnext)) h

end QuorumChain.View
