import QuorumChain.Proofs.View.Move

/-! What an event does to a view before the intent is derived anew. An event that is taken has one of
the effects below; an event that is not taken leaves the view as it is, except that it may end the
intent to build. -/

namespace QuorumChain.View

variable {n : ValidatorCount} {v w : View n}

/-- The view of a validator that starts on a height. -/
def onHeight (v : View n) (height : Height) (serial : Serial) : View n :=
  ((v.setOwn (.start height serial)).clearSignatures).withIntent .doNothing

/-- The view of a validator that has just signed a block. -/
def holding (v : View n) (id : BlockId) (signature : CommitSignature) (serial : Serial) : View n :=
  let v := v.clearSignatures.setOwn { v.own with phase := .haveBlock, block := some id, serial }
  { v with signatures := n.update v.signatures v.me (some signature) }.withIntent .doNothing

@[simp] theorem own_onHeight (v : View n) (height : Height) (serial : Serial) :
    (v.onHeight height serial).own = .start height serial := by
  simp [onHeight]

@[simp] theorem me_onHeight (v : View n) (height : Height) (serial : Serial) :
    (v.onHeight height serial).me = v.me := rfl

@[simp] theorem intent_onHeight (v : View n) (height : Height) (serial : Serial) :
    (v.onHeight height serial).intent = .doNothing := rfl

@[simp] theorem signatures_onHeight (v : View n) (height : Height) (serial : Serial) :
    (v.onHeight height serial).signatures = .replicate n.total none := rfl

theorem statuses_onHeight (v : View n) (height : Height) (serial : Serial) {i : Fin n.total}
    (h : i ≠ v.me) : (v.onHeight height serial).statuses[i] = v.statuses[i] :=
  v.statuses_setOwn _ h

@[simp] theorem own_holding (v : View n) (id : BlockId) (signature : CommitSignature)
    (serial : Serial) : (v.holding id signature serial).own =
      { v.own with phase := .haveBlock, block := some id, serial } :=
  v.clearSignatures.own_setOwn _

@[simp] theorem me_holding (v : View n) (id : BlockId) (signature : CommitSignature)
    (serial : Serial) : (v.holding id signature serial).me = v.me := rfl

@[simp] theorem intent_holding (v : View n) (id : BlockId) (signature : CommitSignature)
    (serial : Serial) : (v.holding id signature serial).intent = .doNothing := rfl

@[simp] theorem signatures_holding (v : View n) (id : BlockId) (signature : CommitSignature)
    (serial : Serial) : (v.holding id signature serial).signatures =
      n.update (Vector.replicate n.total none) v.me (some signature) := rfl

theorem statuses_holding (v : View n) (id : BlockId) (signature : CommitSignature) (serial : Serial)
    {i : Fin n.total} (h : i ≠ v.me) :
    (v.holding id signature serial).statuses[i] = v.statuses[i] :=
  v.clearSignatures.statuses_setOwn _ h

/-- What an event that is taken does at first. -/
inductive Effect (v : View n) : ViewEvent → View n → Prop
  | status {peer : PeerIndex} {i : Fin n.total} {s : Status} (hpeer : n.memberAt? peer = some i)
      (hme : i ≠ v.me) (hnew : s.isNewerThan v.statuses[i] = true) :
      Effect v (.status peer s) { v with statuses := n.update v.statuses i s }
  | received {id : BlockId} {signature : CommitSignature} {serial : Serial}
      (hi : v.intent = .fetchUnfinishedBlock id) (hserial : v.own.serial.next = some serial) :
      Effect v (.received id signature) (v.holding id signature serial)
  | advanced {height : Height} {serial : Serial} (hheight : v.own.height.next = some height)
      (hserial : v.own.serial.next = some serial) :
      Effect v (.advanced height) (v.onHeight height serial)
  | committed {id : BlockId} {height : Height} {serial : Serial} (hb : v.own.block = some id)
      (hheight : v.own.height.next = some height) (hserial : v.own.serial.next = some serial) :
      Effect v (.committed id) (v.onHeight height serial)
  | built {id : BlockId} {signature : CommitSignature} {serial : Serial} (hi : v.intent = .buildBlock)
      (hm : v.isPrimary = true) (hserial : v.own.serial.next = some serial) :
      Effect v (.built id signature) (v.holding id signature serial)
  | signature {peer : PeerIndex} {i : Fin n.total} {id : BlockId} {signature : CommitSignature}
      (hpeer : n.memberAt? peer = some i) (hp : v.own.phase = .prepared)
      (hb : v.own.block = some id) :
      Effect v (.signature peer id signature)
        { v with signatures := n.update v.signatures i (some signature) }
  | revolt {serial : Serial} (hserial : v.own.serial.next = some serial) :
      Effect v .revolt (v.setOwn { v.own with revolting := true, serial })
  | fastForward {committed height : Height} {serial : Serial}
      (hheight : v.own.height.next = some height) (hserial : v.own.serial.next = some serial) :
      Effect v (.fastForward committed) (v.onHeight height serial)
  | intentWanted : Effect v .intentWanted v

theorem advance_eq_ok :
    v.advance = .ok w ↔ ∃ height serial, v.own.height.next = some height ∧
      v.own.serial.next = some serial ∧ (v.onHeight height serial).recompute = .ok w := by
  simp only [advance, bind_eq_ok, nextHeight_eq_ok, bump_eq_ok]
  constructor
  · rintro ⟨_, ⟨height, hheight, rfl⟩, _, ⟨serial, hserial, rfl⟩, h⟩
    simp only [own_setOwn, setOwn_setOwn] at hserial h
    exact ⟨height, serial, hheight, hserial, h⟩
  · rintro ⟨height, serial, hheight, hserial, h⟩
    refine ⟨_, ⟨height, hheight, rfl⟩, _, ⟨serial, ?_, rfl⟩, ?_⟩
    · rw [own_setOwn]
      exact hserial
    · simp only [own_setOwn, setOwn_setOwn]
      exact h

theorem hold_eq_ok {id : BlockId} {signature : CommitSignature} :
    v.hold id signature = .ok w ↔ ∃ serial, v.own.serial.next = some serial ∧
      (v.holding id signature serial).recompute = .ok w := by
  simp only [hold, bind_eq_ok, bump_eq_ok]
  constructor
  · rintro ⟨_, ⟨serial, hserial, rfl⟩, h⟩
    simp only [own_setOwn, setOwn_setOwn] at hserial h
    exact ⟨serial, hserial, h⟩
  · rintro ⟨serial, hserial, h⟩
    refine ⟨_, ⟨serial, ?_, rfl⟩, ?_⟩
    · rw [own_setOwn]
      exact hserial
    · simp only [own_setOwn, setOwn_setOwn]
      exact h

theorem onStatus_ok {peer : PeerIndex} {s : Status} {outcome : Outcome}
    (h : v.onStatus peer s = .ok (outcome, w)) :
    (outcome ≠ .accepted ∧ w = v) ∨
      (outcome = .accepted ∧ ∃ u, Effect v (.status peer s) u ∧ u.recompute = .ok w) := by
  unfold onStatus at h
  split at h
  · cases h
    exact .inl ⟨nofun, rfl⟩
  next i hpeer =>
    split at h
    · cases h
      exact .inl ⟨nofun, rfl⟩
    next hme =>
      split at h
      · cases h
        exact .inl ⟨nofun, rfl⟩
      next hnew =>
        simp only [bind_eq_ok, pure_eq_ok, Prod.mk.injEq] at h
        obtain ⟨u, hu, rfl, rfl⟩ := h
        exact .inr ⟨rfl, _, .status hpeer hme (by simpa using hnew), hu⟩

theorem onReceived_ok {id : BlockId} {signature : CommitSignature} {outcome : Outcome}
    (h : v.onReceived id signature = .ok (outcome, w)) :
    (outcome ≠ .accepted ∧ w = v) ∨
      (outcome = .accepted ∧ ∃ u, Effect v (.received id signature) u ∧ u.recompute = .ok w) := by
  unfold onReceived at h
  split at h
  next wanted hi =>
    split at h
    next hid =>
      simp only [bind_eq_ok, pure_eq_ok, Prod.mk.injEq, hold_eq_ok] at h
      obtain ⟨_, ⟨serial, hserial, hu⟩, rfl, rfl⟩ := h
      rw [hid] at hi
      exact .inr ⟨rfl, _, .received hi hserial, hu⟩
    · cases h
      exact .inl ⟨nofun, rfl⟩
  · cases h
    exact .inl ⟨nofun, rfl⟩

theorem onAdvanced_ok {height : Height} {outcome : Outcome}
    (h : v.onAdvanced height = .ok (outcome, w)) :
    (outcome ≠ .accepted ∧ w = v) ∨
      (outcome = .accepted ∧ ∃ u, Effect v (.advanced height) u ∧ u.recompute = .ok w) := by
  unfold onAdvanced at h
  split at h
  next hnext =>
    simp only [bind_eq_ok, pure_eq_ok, Prod.mk.injEq, advance_eq_ok] at h
    obtain ⟨_, ⟨next, serial, hheight, hserial, hu⟩, rfl, rfl⟩ := h
    cases Option.some.inj (hheight.symm.trans hnext)
    exact .inr ⟨rfl, _, .advanced hheight hserial, hu⟩
  · cases h
    exact .inl ⟨nofun, rfl⟩

theorem onCommitted_ok {id : BlockId} {outcome : Outcome}
    (h : v.onCommitted id = .ok (outcome, w)) :
    (outcome ≠ .accepted ∧ w = v) ∨
      (outcome = .accepted ∧ ∃ u, Effect v (.committed id) u ∧ u.recompute = .ok w) := by
  unfold onCommitted at h
  split at h
  next hb =>
    simp only [bind_eq_ok, pure_eq_ok, Prod.mk.injEq, advance_eq_ok] at h
    obtain ⟨_, ⟨height, serial, hheight, hserial, hu⟩, rfl, rfl⟩ := h
    exact .inr ⟨rfl, _, .committed hb hheight hserial, hu⟩
  · cases h
    exact .inl ⟨nofun, rfl⟩

theorem onBuilt_ok {id : BlockId} {signature : CommitSignature} {outcome : Outcome}
    (h : v.onBuilt id signature = .ok (outcome, w)) :
    (outcome = .stale ∧ w = v) ∨
      (outcome = .rejected ∧ v.intent = .buildBlock ∧ v.isPrimary = false ∧
        w = v.withIntent .doNothing) ∨
      (outcome = .accepted ∧ ∃ u, Effect v (.built id signature) u ∧ u.recompute = .ok w) := by
  unfold onBuilt at h
  split at h
  · cases h
    exact .inl ⟨rfl, rfl⟩
  next hi =>
    rw [ne_eq, Decidable.not_not] at hi
    split at h
    next hm =>
      cases h
      exact .inr (.inl ⟨rfl, hi, by simpa using hm, rfl⟩)
    next hm =>
      simp only [bind_eq_ok, pure_eq_ok, Prod.mk.injEq, hold_eq_ok] at h
      obtain ⟨_, ⟨serial, hserial, hu⟩, rfl, rfl⟩ := h
      exact .inr (.inr ⟨rfl, _, .built hi (by simpa using hm) hserial, hu⟩)

theorem onSignature_ok {peer : PeerIndex} {id : BlockId} {signature : CommitSignature}
    {outcome : Outcome} (h : v.onSignature peer id signature = .ok (outcome, w)) :
    (outcome ≠ .accepted ∧ w = v) ∨
      (outcome = .accepted ∧
        ∃ u, Effect v (.signature peer id signature) u ∧ u.recompute = .ok w) := by
  unfold onSignature at h
  split at h
  · cases h
    exact .inl ⟨nofun, rfl⟩
  next i hpeer =>
    split at h
    · cases h
      exact .inl ⟨nofun, rfl⟩
    next hheld =>
      simp only [ne_eq, not_or, Decidable.not_not] at hheld
      simp only [bind_eq_ok, pure_eq_ok, Prod.mk.injEq] at h
      obtain ⟨u, hu, rfl, rfl⟩ := h
      exact .inr ⟨rfl, _, .signature hpeer hheld.1 hheld.2, hu⟩

theorem onRevolt_ok {outcome : Outcome} (h : v.onRevolt = .ok (outcome, w)) :
    outcome = .accepted ∧ ∃ u, Effect v .revolt u ∧ u.recompute = .ok w := by
  simp only [onRevolt, bind_eq_ok, pure_eq_ok, Prod.mk.injEq, bump_eq_ok] at h
  obtain ⟨_, ⟨serial, hserial, rfl⟩, u, hu, rfl, rfl⟩ := h
  simp only [own_setOwn, setOwn_setOwn] at hserial hu
  exact ⟨rfl, _, .revolt hserial, hu⟩

theorem onFastForward_ok {committed : Height} {outcome : Outcome}
    (h : v.onFastForward committed = .ok (outcome, w)) :
    (outcome ≠ .accepted ∧ w = v) ∨ (outcome = .accepted ∧ ∃ next, committed.next = some next ∧
      v.own.height ≤ next ∧ v.advanceBy (next.number - v.own.height.number) = .ok w) := by
  unfold onFastForward at h
  split at h
  · cases h
    exact .inl ⟨nofun, rfl⟩
  next next hnext =>
    split at h
    · cases h
      exact .inl ⟨nofun, rfl⟩
    next hle =>
      simp only [bind_eq_ok, pure_eq_ok, Prod.mk.injEq] at h
      obtain ⟨u, hu, rfl, rfl⟩ := h
      exact .inr ⟨rfl, next, hnext, Nat.le_of_not_lt hle, hu⟩

/-- An event other than a jump to a greater height either is not taken or has its effect, after which
the intent is derived. -/
theorem handle_ok {e : ViewEvent} {outcome : Outcome} (hjump : ∀ committed, e ≠ .fastForward committed)
    (h : v.handle e = .ok (outcome, w)) :
    (outcome ≠ .accepted ∧ (w = v ∨ v.intent = .buildBlock ∧ w = v.withIntent .doNothing)) ∨
      (outcome = .accepted ∧ ∃ u, Effect v e u ∧ u.recompute = .ok w) := by
  cases e with
  | status peer s => exact (onStatus_ok h).imp_left (And.imp_right .inl)
  | received id signature => exact (onReceived_ok h).imp_left (And.imp_right .inl)
  | advanced height => exact (onAdvanced_ok h).imp_left (And.imp_right .inl)
  | committed id => exact (onCommitted_ok h).imp_left (And.imp_right .inl)
  | built id signature =>
      rcases onBuilt_ok h with ⟨rfl, rfl⟩ | ⟨rfl, hi, _, rfl⟩ | htaken
      · exact .inl ⟨nofun, .inl rfl⟩
      · exact .inl ⟨nofun, .inr ⟨hi, rfl⟩⟩
      · exact .inr htaken
  | signature peer id signature => exact (onSignature_ok h).imp_left (And.imp_right .inl)
  | revolt => exact .inr (onRevolt_ok h)
  | fastForward committed => exact absurd rfl (hjump committed)
  | intentWanted =>
      obtain ⟨u, hu, h⟩ := bind_eq_ok.mp h
      cases h
      exact .inr ⟨rfl, v, .intentWanted, hu⟩

/-- What every effect and every move keep is kept by every event. -/
theorem handle_induction {P : View n → Prop} {e : ViewEvent} {outcome : Outcome}
    (heffect : ∀ {v w}, P v → Effect v e w → P w)
    (hrest : ∀ {v : View n}, P v → v.intent = .buildBlock → P (v.withIntent .doNothing))
    (hrecompute : ∀ {v w}, P v → v.recompute = .ok w → P w)
    (hv : P v) (h : v.handle e = .ok (outcome, w)) : P w := by
  by_cases hjump : ∃ committed, e = .fastForward committed
  · obtain ⟨committed, rfl⟩ := hjump
    rcases onFastForward_ok h with ⟨_, rfl⟩ | ⟨_, next, _, hle, hu⟩
    · exact hv
    · generalize next.number - v.own.height.number = count at hu
      clear h hle
      induction count generalizing v with
      | zero =>
          cases hu
          exact hv
      | succ k ih =>
          obtain ⟨u, hadvance, hu⟩ := bind_eq_ok.mp hu
          obtain ⟨height, serial, hheight, hserial, hrec⟩ := advance_eq_ok.mp hadvance
          exact ih (hrecompute (heffect hv (.fastForward hheight hserial)) hrec) hu
  · rcases handle_ok (not_exists.mp hjump) h with ⟨_, rfl | ⟨hi, rfl⟩⟩ | ⟨_, u, hu, hrec⟩
    · exact hv
    · exact hrest hv hi
    · exact hrecompute (heffect hv hu) hrec

end QuorumChain.View
