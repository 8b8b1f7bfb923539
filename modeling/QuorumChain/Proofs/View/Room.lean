import QuorumChain.Proofs.View.Effect

/-! Room for changes. How far the own counters move at an event does not depend on what is heard: deriving
the intent prepares or gives up a block once and ends a round once, however many steps it takes. So a view
that is a given number of changes away from the last height, round and serial gets through the events that
these changes are enough for. -/

namespace QuorumChain

namespace Status

/-- How often deriving the intent may end the round of a status. -/
def roundsDue (s : Status) : Nat := if s.revolting then 1 else 0

/-- How often deriving the intent may change a status: it ends the round, and prepares a block that is held
or gives it up. -/
def changesDue (s : Status) : Nat := (if s.phase = .haveBlock then 1 else 0) + s.roundsDue

/-- So many changes may come on top of those that deriving the intent makes. -/
structure Room (s : Status) (k : Nat) : Prop where
  height : s.height.number + k < 2 ^ 64
  round : s.round.number + s.roundsDue + k < 2 ^ 64
  serial : s.serial.number + s.changesDue + k < 2 ^ 64

namespace Room

variable {s : Status} {k : Nat} {serial : Serial}

theorem mono {j : Nat} (h : s.Room j) (hle : k ≤ j) : s.Room k where
  height := by have := h.height; omega
  round := by have := h.round; omega
  serial := by have := h.serial; omega

theorem drop (h : s.Room k) (hp : s.phase = .haveBlock) (hserial : serial.number = s.serial.number + 1) :
    Room { s with phase := .waitBlock, block := none, serial } k where
  height := h.height
  round := h.round
  serial := by
    have := h.serial
    simp only [changesDue, roundsDue, hp, if_true] at this
    simp only [changesDue, roundsDue, reduceCtorEq, if_false]
    omega

theorem prepare (h : s.Room k) (hp : s.phase = .haveBlock)
    (hserial : serial.number = s.serial.number + 1) : Room { s with phase := .prepared, serial } k where
  height := h.height
  round := h.round
  serial := by
    have := h.serial
    simp only [changesDue, roundsDue, hp, if_true] at this
    simp only [changesDue, roundsDue, reduceCtorEq, if_false]
    omega

theorem rotate {round : Round} (h : s.Room k) (hr : s.revolting = true)
    (hround : round.number = s.round.number + 1) (hserial : serial.number = s.serial.number + 1) :
    Room { s with revolting := false, round, serial } k where
  height := h.height
  round := by
    have := h.round
    simp only [roundsDue, hr, if_true] at this
    simp only [roundsDue, Bool.false_eq_true, if_false]
    omega
  serial := by
    have := h.serial
    simp only [changesDue, roundsDue, hr, if_true] at this
    simp only [changesDue, roundsDue, Bool.false_eq_true, if_false]
    omega

theorem revolt (h : s.Room (k + 2)) (hserial : serial.number = s.serial.number + 1) :
    Room { s with revolting := true, serial } k where
  height := by
    have := h.height
    show s.height.number + k < 2 ^ 64
    omega
  round := by
    have := h.round
    simp only [roundsDue, if_true]
    omega
  serial := by
    have := h.serial
    simp only [changesDue] at this
    simp only [changesDue, roundsDue, if_true]
    omega

theorem hold {id : BlockId} (h : s.Room (k + 2)) (hserial : serial.number = s.serial.number + 1) :
    Room { s with phase := .haveBlock, block := some id, serial } k where
  height := by
    have := h.height
    show s.height.number + k < 2 ^ 64
    omega
  round := by
    have := h.round
    show s.round.number + s.roundsDue + k < 2 ^ 64
    omega
  serial := by
    have := h.serial
    simp only [changesDue] at this
    show serial.number + (1 + s.roundsDue) + k < 2 ^ 64
    omega

theorem start {height : Height} (hheight : height.number + k < 2 ^ 64) (hserial : serial.number + k < 2 ^ 64) :
    (Status.start height serial).Room k where
  height := hheight
  round := by
    show 0 + 0 + k < 2 ^ 64
    omega
  serial := hserial

end Room

end Status

/-! Where the own status has room, every part of a step has an outcome. -/

namespace Status.Room

variable {n : ValidatorCount} {v w : View n} {k : Nat}

theorem exists_serial (h : v.own.Room k) (hdue : 0 < v.own.changesDue + k) :
    ∃ serial, v.own.serial.next = some serial ∧ serial.number = v.own.serial.number + 1 :=
  Counter.exists_next (by have := h.serial; omega)

/-- A block that is held is prepared or given up. -/
theorem exists_serial_held (h : v.own.Room k) (hp : v.own.phase = .haveBlock) :
    ∃ serial, v.own.serial.next = some serial ∧ serial.number = v.own.serial.number + 1 :=
  h.exists_serial (by
    rw [changesDue, if_pos hp]
    omega)

theorem dropHeldBlock (h : v.own.Room k) (hw : v.dropHeldBlock = .ok w) :
    w.own.Room k ∧ w.own.revolting = v.own.revolting := by
  rcases View.dropHeldBlock_eq_ok.mp hw with ⟨_, rfl⟩ | ⟨hp, serial, hserial, rfl⟩
  · exact ⟨h, rfl⟩
  · rw [View.own_clearSignatures, View.own_setOwn]
    exact ⟨h.drop hp (Counter.next_eq_some.mp hserial), rfl⟩

/-- **A step takes no room away.** A change of the own status was due before it, and is not any more. -/
theorem move (h : v.own.Room k) (hm : View.Move v w) : w.own.Room k := by
  cases hm with
  | fallBehind hp hb hw => exact (h.dropHeldBlock hw).1
  | rotate hr hq hw hround hserial =>
      obtain ⟨hu, hrevolting⟩ := h.dropHeldBlock hw
      rw [View.own_setOwn]
      exact hu.rotate (hrevolting.trans hr) (Counter.next_eq_some.mp hround)
        (Counter.next_eq_some.mp hserial)
  | prepare hp hq hserial =>
      rw [View.own_setOwn]
      exact h.prepare hp (Counter.next_eq_some.mp hserial)
  | _ => exact h

theorem drop_ok (h : v.own.Room k) : ∃ w, v.dropHeldBlock = .ok w := by
  by_cases hp : v.own.phase = .haveBlock
  · obtain ⟨serial, hserial, _⟩ := h.exists_serial_held hp
    exact ⟨_, View.dropHeldBlock_eq_ok.mpr (.inr ⟨hp, serial, hserial, rfl⟩)⟩
  · exact ⟨v, View.dropHeldBlock_eq_ok.mpr (.inl ⟨hp, rfl⟩)⟩

theorem endRound_ok (h : v.own.Room k) (hr : v.own.revolting = true) : ∃ stage, v.endRound = .ok stage := by
  obtain ⟨u, hu⟩ := h.drop_ok
  obtain ⟨hroom, hrevolting⟩ := h.dropHeldBlock hu
  have hdue : u.own.roundsDue = 1 := if_pos (hrevolting.trans hr)
  obtain ⟨round, hround, _⟩ : ∃ round, u.own.round.next = some round ∧ _ :=
    Counter.exists_next (by have := hroom.round; omega)
  obtain ⟨serial, hserial, _⟩ := hroom.exists_serial (by rw [changesDue]; omega)
  unfold View.endRound
  split
  · exact ⟨_, rfl⟩
  · refine ⟨_, bind_eq_ok.mpr ⟨u, hu, bind_eq_ok.mpr ⟨_, View.nextRound_eq_ok.mpr ⟨round, ?_, rfl⟩,
      bind_eq_ok.mpr ⟨_, View.bump_eq_ok.mpr ⟨serial, ?_, rfl⟩, rfl⟩⟩⟩⟩
    · rw [View.own_setOwn]
      exact hround
    · rw [View.own_setOwn, View.own_setOwn]
      exact hserial

theorem proceed_ok (h : v.own.Room k) : ∃ next, v.proceed = .ok next := by
  unfold View.proceed
  split
  · exact ⟨_, rfl⟩
  next hp =>
    obtain ⟨serial, hserial, _⟩ := h.exists_serial_held hp
    unfold View.prepare
    split
    · exact ⟨_, rfl⟩
    · refine ⟨_, bind_eq_ok.mpr ⟨_, View.bump_eq_ok.mpr ⟨serial, ?_, rfl⟩, rfl⟩⟩
      rw [View.own_setOwn]
      exact hserial
  · exact ⟨_, rfl⟩

theorem step_ok (h : v.own.Room k) : ∃ next, v.step = .ok next :=
  View.step_total (View.catchUp_total h.drop_ok) h.endRound_ok h.proceed_ok

end Status.Room

namespace View

variable {n : ValidatorCount} {v w : View n} {k : Nat}

/-- There is room for so many changes, and the count of derivations that took too many steps may grow as
often. -/
structure Room (v : View n) (k : Nat) : Prop where
  own : v.own.Room k
  hits : v.capHits + k < 2 ^ 64

namespace Room

theorem mono {j : Nat} (h : v.Room j) (hle : k ≤ j) : v.Room k where
  own := h.own.mono hle
  hits := by have := h.hits; omega

theorem start {me : PeerIndex} {height : Height} {cap : Nat} {serial : Serial}
    (h : View.start n me height cap serial = .ok v) (hheight : height.number + k < 2 ^ 64)
    (hserial : serial.number + k < 2 ^ 64) : v.Room k where
  own := by
    rw [(start_ok h).2.1]
    exact .start hheight hserial
  hits := by
    have hhits : v.capHits = 0 := by
      unfold View.start at h
      split at h
      · cases h
      · split at h
        · cases h
        · cases h
          rfl
    omega

/-- Only the own status and the count matter. -/
theorem ofSame (h : v.Room k) (hown : w.own = v.own) (hhits : w.capHits = v.capHits) : w.Room k where
  own := hown ▸ h.own
  hits := hhits ▸ h.hits

theorem move (h : v.Room k) (hm : Move v w) : w.Room k where
  own := h.own.move hm
  hits := by
    rw [hm.caps_eq.2]
    exact h.hits

/-- **Deriving the intent has an outcome**, and takes room only for the count. -/
theorem recompute_ok (h : v.Room (k + 1)) : ∃ w, v.recompute = .ok w ∧ w.Room k := by
  unfold recompute
  generalize v.cap = steps
  induction steps generalizing v with
  | zero =>
      refine ⟨_, rfl, h.own.mono (Nat.le_succ k), ?_⟩
      have := h.hits
      show v.capHits + 1 + k < 2 ^ 64
      omega
  | succ m ih =>
      obtain ⟨next, hnext⟩ := h.own.step_ok
      rw [recomputeWithin, hnext]
      cases next with
      | none => exact ⟨v, rfl, h.mono (Nat.le_succ k)⟩
      | some u => exact ih (h.move (step_changed hnext))

theorem advance_ok (h : v.Room (k + 2)) : ∃ w, v.advance = .ok w ∧ w.Room k := by
  obtain ⟨height, hheight, hup⟩ : ∃ height, v.own.height.next = some height ∧ _ :=
    Counter.exists_next (by have := h.own.height; omega)
  obtain ⟨serial, hserial, hnext⟩ := h.own.exists_serial (by omega)
  have hroom : (v.onHeight height serial).Room (k + 1) := by
    refine ⟨?_, (h.mono (by omega)).hits⟩
    rw [own_onHeight]
    have := h.own.height
    have := h.own.serial
    exact .start (by omega) (by omega)
  obtain ⟨w, hw, hroom⟩ := hroom.recompute_ok
  exact ⟨w, advance_eq_ok.mpr ⟨height, serial, hheight, hserial, hw⟩, hroom⟩

theorem hold_ok {id : BlockId} {signature : CommitSignature} (h : v.Room (k + 3)) :
    ∃ w, v.hold id signature = .ok w ∧ w.Room k := by
  obtain ⟨serial, hserial, hnext⟩ := h.own.exists_serial (by omega)
  have hroom : (v.holding id signature serial).Room (k + 1) := by
    refine ⟨?_, (h.mono (by omega)).hits⟩
    rw [own_holding]
    exact h.own.hold hnext
  obtain ⟨w, hw, hroom⟩ := hroom.recompute_ok
  exact ⟨w, hold_eq_ok.mpr ⟨serial, hserial, hw⟩, hroom⟩

/-- An event that ends with a change that has an outcome. -/
theorem accept {c : Change n (View n)} (h : ∃ w, c = .ok w ∧ w.Room k) :
    ∃ outcome w, (do return (Outcome.accepted, ← c)) = (.ok (outcome, w) : Change n _) ∧ w.Room k := by
  obtain ⟨w, rfl, hroom⟩ := h
  exact ⟨.accepted, w, rfl, hroom⟩

/-- **An event takes three changes at most**, whatever is heard with it. Jumping over blocks may take
more. -/
theorem handle_ok {e : ViewEvent} (h : v.Room (k + 3)) (he : ∀ height, e ≠ .fastForward height) :
    ∃ outcome w, v.handle e = .ok (outcome, w) ∧ w.Room k := by
  have hstay : ∀ outcome, ∃ outcome' w, (.ok (outcome, v) : Change n (Outcome × View n)) =
      .ok (outcome', w) ∧ w.Room k := fun outcome => ⟨outcome, v, rfl, h.mono (by omega)⟩
  have hrecompute : ∀ {u : View n}, u.own = v.own → u.capHits = v.capHits →
      ∃ w, u.recompute = .ok w ∧ w.Room k := fun hown hhits =>
    ((h.ofSame hown hhits).mono (by omega)).recompute_ok
  cases e with
  | status peer s =>
      show ∃ outcome w, v.onStatus peer s = _ ∧ _
      unfold onStatus
      split
      · exact hstay _
      · split
        · exact hstay _
        next hme =>
          split
          · exact hstay _
          · exact accept (hrecompute (own_setStatus hme) rfl)
  | received id signature =>
      show ∃ outcome w, v.onReceived id signature = _ ∧ _
      unfold onReceived
      split
      · split
        · exact accept h.hold_ok
        · exact hstay _
      · exact hstay _
  | advanced height =>
      show ∃ outcome w, v.onAdvanced height = _ ∧ _
      unfold onAdvanced
      split
      · exact accept (h.mono (by omega)).advance_ok
      · exact hstay _
  | committed id =>
      show ∃ outcome w, v.onCommitted id = _ ∧ _
      unfold onCommitted
      split
      · exact accept (h.mono (by omega)).advance_ok
      · exact hstay _
  | built id signature =>
      show ∃ outcome w, v.onBuilt id signature = _ ∧ _
      unfold onBuilt
      split
      · exact hstay _
      · split
        · exact ⟨_, _, rfl, Room.ofSame (h.mono (by omega)) rfl rfl⟩
        · exact accept h.hold_ok
  | signature peer id signature =>
      show ∃ outcome w, v.onSignature peer id signature = _ ∧ _
      unfold onSignature
      split
      · exact hstay _
      · split
        · exact hstay _
        · exact accept (hrecompute rfl rfl)
  | revolt =>
      obtain ⟨serial, hserial, hnext⟩ := h.own.exists_serial (by omega)
      have hroom : (v.setOwn { v.own with revolting := true, serial }).Room (k + 1) := by
        refine ⟨?_, (h.mono (by omega)).hits⟩
        rw [own_setOwn]
        exact h.own.revolt hnext
      obtain ⟨w, hw, hroom⟩ := hroom.recompute_ok
      refine ⟨.accepted, w, bind_eq_ok.mpr ⟨_, bump_eq_ok.mpr ⟨serial, ?_, rfl⟩, ?_⟩, hroom⟩
      · rw [own_setOwn]
        exact hserial
      · simp only [own_setOwn, setOwn_setOwn]
        rw [hw]
        rfl
  | fastForward height => exact absurd rfl (he height)
  | intentWanted => exact accept (hrecompute rfl rfl)

end Room

end View

end QuorumChain
