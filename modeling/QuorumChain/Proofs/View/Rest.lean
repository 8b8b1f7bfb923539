import QuorumChain.Proofs.View.Due
import QuorumChain.Proofs.View.Room

/-! How soon a view comes to rest. The parts of a step can give each other something to do: a round that
ends drops a block, a block that is dropped changes the intent. But after any change of the own status only
the intent is left to change, and after a change of the intent alone nothing is. So no more than two steps
change anything, whatever the view was, and a third one finds that out. -/

namespace QuorumChain

namespace View

variable {n : ValidatorCount} {u v w : View n} {k steps : Nat}

/-- So many steps change something, one after the other, and then nothing is left to change. -/
inductive RestsAfter : Nat → View n → View n → Prop
  | rest {v : View n} (h : v.step = .ok none) : RestsAfter 0 v v
  | change {k : Nat} {v u w : View n} (h : v.step = .ok (some u)) (hu : RestsAfter k u w) :
      RestsAfter (k + 1) v w

namespace RestsAfter

theorem settled (h : RestsAfter k v w) : w.step = .ok none := by
  induction h with
  | rest h => exact h
  | change _ _ ih => exact ih

theorem caps_eq (h : RestsAfter k v w) : w.cap = v.cap ∧ w.capHits = v.capHits := by
  induction h with
  | rest _ => exact ⟨rfl, rfl⟩
  | change hstep _ ih =>
      obtain ⟨hcap, hhits⟩ := (step_changed hstep).caps_eq
      exact ⟨ih.1.trans hcap, ih.2.trans hhits⟩

/-- The intent is derived without a hit of the cap if one step is left to find that nothing changes. -/
theorem recomputeWithin_eq (h : RestsAfter k v w) (hk : k < steps) : recomputeWithin steps v = .ok w := by
  induction h generalizing steps with
  | rest hstep =>
      obtain ⟨m, rfl⟩ := Nat.exists_eq_add_one_of_ne_zero (Nat.ne_zero_of_lt hk)
      exact recomputeWithin_succ.mpr (.inl ⟨hstep, rfl⟩)
  | change hstep _ ih =>
      obtain ⟨m, rfl⟩ := Nat.exists_eq_add_one_of_ne_zero (Nat.ne_zero_of_lt hk)
      exact recomputeWithin_succ.mpr (.inr ⟨_, hstep, ih (Nat.lt_of_succ_lt_succ hk)⟩)

theorem intentWanted_eq (h : RestsAfter k v w) (hk : k < v.cap) :
    v.handle .intentWanted = .ok (.accepted, w) := by
  have hrec : v.recompute = .ok w := h.recomputeWithin_eq hk
  show (do return (Outcome.accepted, ← v.recompute)) = _
  rw [hrec]
  rfl

end RestsAfter

/-- A view whose counters have room comes to rest after two changes at most. -/
theorem exists_restsAfter (h : v.own.Room 0) : ∃ k w, k ≤ 2 ∧ RestsAfter k v w := by
  obtain ⟨_ | u, hv⟩ := h.step_ok
  · exact ⟨0, v, by omega, .rest hv⟩
  rcases step_settles hv with hu | hready
  · exact ⟨1, u, by omega, .change hv (.rest hu)⟩
  -- only the intent is left to change
  obtain ⟨_ | w, hu⟩ := (h.move (step_changed hv)).step_ok
  · exact ⟨1, u, by omega, .change hv (.rest hu)⟩
  · exact ⟨2, w, by omega, .change hv (.change hu (.rest (hready.settles hu)))⟩

/-- **Every view comes to rest within three steps**, however it came about: two of them change something at
most. So with a cap of three or more, deriving the intent never hits the cap, leaves nothing to change, and
changes nothing when it is done again. -/
theorem rests_within_three (v : View n) (hserial : v.own.serial.number ≤ 2 ^ 64 - 4)
    (hround : v.own.round.number < 2 ^ 64 - 1) :
    ∃ k w, k ≤ 2 ∧ RestsAfter k v w ∧
      (3 ≤ v.cap → v.recompute = .ok w ∧ w.capHits = v.capHits ∧ w.step = .ok none ∧
        v.handle .intentWanted = .ok (.accepted, w) ∧ w.handle .intentWanted = .ok (.accepted, w)) := by
  have hroom : v.own.Room 0 := by
    have hheight := v.own.height.number_lt
    refine ⟨hheight, ?_, ?_⟩
    · unfold Status.roundsDue
      split <;> omega
    · unfold Status.changesDue Status.roundsDue
      split <;> split <;> omega
  obtain ⟨k, w, hk, hrests⟩ := exists_restsAfter hroom
  obtain ⟨hcap, hhits⟩ := hrests.caps_eq
  refine ⟨k, w, hk, hrests, fun hthree => ⟨?_, hhits, hrests.settled, ?_, ?_⟩⟩
  · exact hrests.recomputeWithin_eq (by omega)
  · exact hrests.intentWanted_eq (by omega)
  · exact (RestsAfter.rest hrests.settled).intentWanted_eq (by omega)

section Plain

/-- Validator 1 holds the block of validator 0, and wants the round to end as validators 2 and 3 do. -/
def deposingView : View quartet where
  me := 1
  statuses := .ofFn fun i =>
    if i = 0 then ⟨.zero, .zero, .haveBlock, some plainId, false, .zero⟩
    else if i = 1 then ⟨.zero, .zero, .haveBlock, some plainId, true, .ofNatClamped (2 ^ 64 - 4)⟩
    else ⟨.zero, .zero, .waitBlock, none, true, .zero⟩
  signatures := quartet.update (.replicate quartet.total none) 1 (some ⟨⟨.fill 32 2⟩, ⟨.fill 64 2⟩⟩)
  intent := .doNothing
  cap := 3
  capHits := 0

/-- It drops the block and ends the round, and then means to build a block as the next primary. -/
theorem rests_within_three_deposing :
    ∃ k w, k ≤ 2 ∧ RestsAfter k deposingView w ∧ deposingView.recompute = .ok w ∧ w.capHits = 0 ∧
      w.own.block = none ∧ w.own.round.number = 1 ∧ w.own.serial.number = 2 ^ 64 - 2 ∧
      w.intent = .buildBlock ∧ w.handle .intentWanted = .ok (.accepted, w) := by
  obtain ⟨k, w, hk, hrests, hcapped⟩ :=
    rests_within_three deposingView (by decide +kernel) (by decide +kernel)
  obtain ⟨hrec, hhits, _, _, hagain⟩ := hcapped (Nat.le_refl 3)
  obtain ⟨x, hx, hblock, hround, hserial, hintent⟩ := exists_ok (x := deposingView.recompute)
    (P := fun w => w.own.block = none ∧ w.own.round.number = 1 ∧
      w.own.serial.number = 2 ^ 64 - 2 ∧ w.intent = .buildBlock) (by decide +kernel)
  obtain rfl : w = x := Except.ok.inj (hrec.symm.trans hx)
  exact ⟨k, w, hk, hrests, hrec, hhits, hblock, hround, hserial, hintent, hagain⟩

end Plain

end View

end QuorumChain
