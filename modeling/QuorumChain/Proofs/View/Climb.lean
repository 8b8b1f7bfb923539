import QuorumChain.Proofs.View.Run
import QuorumChain.Proofs.View.Waiting

/-! A jump to a greater height goes through every height in between. The intent is derived anew on each of
them, with whatever is believed of the others at the time; a validator that has just got to a height waits,
so that changes neither its own status nor the way that is left. -/

namespace QuorumChain

namespace View

variable {n : ValidatorCount} {u v w : View n} {committed height next : Height} {serial last : Serial} {k : Nat}

/-- A validator has got to a height: it starts there, without signatures, and believes of the others what
it believed before. -/
structure Reaches (v : View n) (height : Height) (serial : Serial) (w : View n) : Prop where
  me_eq : w.me = v.me
  own_eq : w.own = .start height serial
  others : ∀ i : Fin n.total, i ≠ v.me → w.statuses[i] = v.statuses[i]
  signatures_eq : w.signatures = .replicate n.total none

theorem Reaches.trans (h : v.Reaches height serial u) (h' : u.Reaches next last w) : v.Reaches next last w where
  me_eq := h'.me_eq.trans h.me_eq
  own_eq := h'.own_eq
  others i hi := (h'.others i (h.me_eq ▸ hi)).trans (h.others i hi)
  signatures_eq := h'.signatures_eq

theorem advance_reaches (hheight : v.own.height.next = some height) (hserial : v.own.serial.next = some serial) :
    ∃ w, v.advance = .ok w ∧ v.Reaches height serial w := by
  have hwaits := Waits.onHeight v height serial
  obtain ⟨w, hw⟩ := hwaits.recompute_ok
  refine ⟨w, advance_eq_ok.mpr ⟨height, serial, hheight, hserial, hw⟩, ?_⟩
  obtain ⟨intent, hits, rfl⟩ := hwaits.recompute_eq hw
  exact ⟨rfl, v.own_onHeight height serial, fun i hi => v.statuses_onHeight height serial hi, rfl⟩

theorem Reaches.of_advance (h : v.advance = .ok w) : ∃ height serial, v.own.height.next = some height ∧
    v.own.serial.next = some serial ∧ v.Reaches height serial w := by
  obtain ⟨height, serial, hheight, hserial, _⟩ := advance_eq_ok.mp h
  obtain ⟨w', hw', hreaches⟩ := advance_reaches hheight hserial
  cases Except.ok.inj (h.symm.trans hw')
  exact ⟨height, serial, hheight, hserial, hreaches⟩

/-- A validator that has advanced some times is where it was, or has got to a greater height. -/
theorem Reaches.of_advanceBy (h : v.advanceBy k = .ok w) :
    w = v ∨ ∃ next last, v.own.height < next ∧ v.Reaches next last w := by
  induction k generalizing v with
  | zero =>
      cases h
      exact .inl rfl
  | succ k ih =>
      obtain ⟨u, hu, h⟩ := bind_eq_ok.mp h
      obtain ⟨height, serial, hheight, _, hreaches⟩ := of_advance hu
      have hup : v.own.height < height := Counter.lt_of_next hheight
      rcases ih h with rfl | ⟨next, last, hlt, hrest⟩
      · exact .inr ⟨height, serial, hup, hreaches⟩
      · rw [hreaches.own_eq] at hlt
        exact .inr ⟨next, last, Nat.lt_trans hup hlt, hreaches.trans hrest⟩

theorem fastForward_eq (hnext : committed.next = some next) (hk : next.number = v.own.height.number + k) :
    v.handle (.fastForward committed) = (do return (.accepted, ← v.advanceBy k)) := by
  show v.onFastForward committed = _
  have hup : ¬ next < v.own.height := Nat.not_lt.mpr (by omega)
  have hcount : next.number - v.own.height.number = k := by omega
  simp only [onFastForward, hnext, if_neg hup, hcount]

theorem advance_overflow (hheight : v.own.height.next = some height) (hserial : v.own.serial.next = none) :
    ∃ b, v.advance = .error b ∧ b.fault = .serialOverflow := by
  refine ⟨⟨.serialOverflow, v.setOwn { v.own with height }⟩, ?_, rfl⟩
  have hbump : (v.setOwn { v.own with height }).bump =
      .error ⟨.serialOverflow, v.setOwn { v.own with height }⟩ := by
    simp only [bump, own_setOwn, hserial]
  exact bind_eq_error.mpr
    (.inr ⟨_, nextHeight_eq_ok.mpr ⟨height, hheight, rfl⟩, bind_eq_error.mpr (.inl hbump)⟩)

theorem advanceBy_overflow (hheight : v.own.height.number + k < 2 ^ 64)
    (hserial : 2 ^ 64 ≤ v.own.serial.number + k) :
    ∃ b, v.advanceBy k = .error b ∧ b.fault = .serialOverflow := by
  induction k generalizing v with
  | zero => exact absurd v.own.serial.number_lt (Nat.not_lt.mpr hserial)
  | succ k ih =>
      obtain ⟨height, hup, hheightNumber⟩ := Counter.exists_next (a := v.own.height) (by omega)
      cases hserial' : v.own.serial.next with
      | none =>
          obtain ⟨b, hb, hfault⟩ := advance_overflow hup hserial'
          exact ⟨b, bind_eq_error.mpr (.inl hb), hfault⟩
      | some serial =>
          have hserialNumber := Counter.next_eq_some.mp hserial'
          obtain ⟨u, hu, hreaches⟩ := advance_reaches hup hserial'
          have hown := hreaches.own_eq
          obtain ⟨b, hb, hfault⟩ := ih (v := u) (by rw [hown]; show height.number + k < _; omega)
            (by rw [hown]; show _ ≤ serial.number + k; omega)
          exact ⟨b, bind_eq_error.mpr (.inr ⟨u, hu, hb⟩), hfault⟩

/-- There is no jump without a serial for each height on the way. -/
theorem fastForward_overflow (hnext : committed.next = some next) (hk : next.number = v.own.height.number + k)
    (hserial : 2 ^ 64 ≤ v.own.serial.number + k) :
    ∃ b, v.handle (.fastForward committed) = .error b ∧ b.fault = .serialOverflow := by
  obtain ⟨b, hb, hfault⟩ := advanceBy_overflow (hk ▸ next.number_lt) hserial
  refine ⟨b, ?_, hfault⟩
  rw [fastForward_eq hnext hk]
  exact bind_pure_eq_error.mpr hb

section Plain

end Plain

end View

end QuorumChain
