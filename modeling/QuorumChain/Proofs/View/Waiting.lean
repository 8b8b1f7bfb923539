import QuorumChain.Proofs.View.Effect

/-! A validator that waits for a block and is not revolting, such as one that has just got to a height.
Whatever it believes of the others, deriving the intent changes its intent only, and cannot break down. -/

namespace QuorumChain.View

variable {n : ValidatorCount} {v w : View n}

/-- A view that waits for a block, with nothing against the round. -/
structure Waits (v : View n) : Prop where
  phase : v.own.phase = .waitBlock
  revolting : v.own.revolting = false

namespace Waits

theorem drop (hv : v.Waits) : v.dropHeldBlock = .ok v :=
  dropHeldBlock_eq_ok.mpr (.inl ⟨by simp [hv.phase], rfl⟩)

theorem move_eq (hv : v.Waits) (h : Move v w) : ∃ intent, w = v.withIntent intent := by
  cases h with
  | fallBehind hp hb hw =>
      cases hv.drop.symm.trans hw
      exact ⟨_, rfl⟩
  | rotate hr hq hw hround hserial => exact nomatch hv.revolting.symm.trans hr
  | prepare hp hq hserial => exact nomatch hv.phase.symm.trans hp
  | _ => exact ⟨_, rfl⟩

theorem move (hv : v.Waits) (h : Move v w) : w.Waits := by
  obtain ⟨intent, rfl⟩ := hv.move_eq h
  exact ⟨hv.phase, hv.revolting⟩

/-- Nothing is counted, so there is nothing to run out of. -/
theorem step_ok (hv : v.Waits) : ∃ next, v.step = .ok next := by
  refine step_total (catchUp_total ⟨v, hv.drop⟩) (fun hr => ?_) ⟨v.awaitBlock, ?_⟩
  · exact nomatch hv.revolting.symm.trans hr
  · simp only [proceed, hv.phase]

theorem recompute_ok (hv : v.Waits) : ∃ w, v.recompute = .ok w := by
  unfold recompute
  generalize v.cap = steps
  induction steps generalizing v with
  | zero => exact ⟨_, rfl⟩
  | succ k ih =>
      obtain ⟨next, hnext⟩ := hv.step_ok
      rw [recomputeWithin, hnext]
      cases next with
      | none => exact ⟨v, rfl⟩
      | some u => exact ih (hv.move (step_changed hnext))

/-- Deriving the intent leaves all but the intent as it is, and the count of the hits of the cap. -/
theorem recompute_eq (hv : v.Waits) (h : v.recompute = .ok w) :
    ∃ intent hits, w = { v with intent, capHits := hits } := by
  refine (recompute_induction
    (P := fun w => w.Waits ∧ ∃ intent hits, w = { v with intent, capHits := hits }) ?_ ?_
    ⟨hv, v.intent, v.capHits, rfl⟩ h).2
  · rintro _ w ⟨hu, intent, hits, rfl⟩ hmove
    refine ⟨hu.move hmove, ?_⟩
    obtain ⟨intent', rfl⟩ := hu.move_eq hmove
    exact ⟨intent', hits, rfl⟩
  · rintro _ hits' ⟨hu, intent, hits, rfl⟩
    exact ⟨⟨hu.phase, hu.revolting⟩, intent, hits', rfl⟩

theorem onHeight (v : View n) (height : Height) (serial : Serial) : (v.onHeight height serial).Waits := by
  constructor
  · rw [own_onHeight]
    rfl
  · rw [own_onHeight]
    rfl

end Waits

/-- A validator gets to the next height unless it has run out of heights or serials. -/
theorem advance_total (v : View n) :
    (∃ w, v.advance = .ok w) ∨ v.own.height.next = none ∨ v.own.serial.next = none := by
  cases hheight : v.own.height.next with
  | none => exact .inr (.inl rfl)
  | some height =>
      cases hserial : v.own.serial.next with
      | none => exact .inr (.inr rfl)
      | some serial =>
          obtain ⟨w, hw⟩ := (Waits.onHeight v height serial).recompute_ok
          exact .inl ⟨w, advance_eq_ok.mpr ⟨height, serial, hheight, hserial, hw⟩⟩

end QuorumChain.View
