import QuorumChain.Proofs.View.Effect

/-! What deriving the intent leaves as it was. A validator keeps its height and what it believes of the
others, and it keeps its block with the signatures over it or gives up both. A prepared block is never
given up. -/

namespace QuorumChain

namespace View

variable {n : ValidatorCount} {v w : View n}

/-- The block and its signatures are gone, or they are those of before. -/
def Retains (v w : View n) : Prop :=
  (v.own.phase ≠ .prepared ∧ w.own.phase = .waitBlock ∧ w.own.block = none ∧
      w.signatures = .replicate n.total none) ∨
    (w.own.block = v.own.block ∧ w.signatures = v.signatures ∧
      (w.own.phase = v.own.phase ∨ v.own.phase = .haveBlock ∧ w.own.phase = .prepared))

theorem Retains.trans {u : View n} (h : v.Retains u) (h' : u.Retains w) : v.Retains w := by
  rcases h with ⟨hv, hu, hblock, hslots⟩ | ⟨hblock, hslots, hphase⟩
  · rcases h' with ⟨_, hw⟩ | ⟨hblock', hslots', hphase'⟩
    · exact .inl ⟨hv, hw⟩
    · rcases hphase' with hphase' | ⟨hheld, _⟩
      · exact .inl ⟨hv, hphase'.trans hu, hblock'.trans hblock, hslots'.trans hslots⟩
      · exact nomatch hu.symm.trans hheld
  · rcases h' with ⟨hu, hw⟩ | ⟨hblock', hslots', hphase'⟩
    · refine .inl ⟨fun hp => hu ?_, hw⟩
      rcases hphase with hphase | ⟨hheld, _⟩
      · exact hphase.trans hp
      · exact nomatch hheld.symm.trans hp
    · refine .inr ⟨hblock'.trans hblock, hslots'.trans hslots, ?_⟩
      rcases hphase with hphase | ⟨hheld, hprep⟩
      · rw [hphase] at hphase'
        exact hphase'
      · rcases hphase' with hphase' | ⟨hheld', _⟩
        · exact .inr ⟨hheld, hphase'.trans hprep⟩
        · exact nomatch hprep.symm.trans hheld'

/-- What deriving the intent makes of a view, apart from the intent. -/
structure Continues (v w : View n) : Prop where
  me_eq : w.me = v.me
  height_eq : w.own.height = v.own.height
  others : ∀ i : Fin n.total, i ≠ v.me → w.statuses[i] = v.statuses[i]
  retains : v.Retains w

namespace Continues

theorem refl (v : View n) : v.Continues v :=
  ⟨rfl, rfl, fun _ _ => rfl, .inr ⟨rfl, rfl, .inl rfl⟩⟩

theorem trans {u : View n} (h : v.Continues u) (h' : u.Continues w) : v.Continues w where
  me_eq := h'.me_eq.trans h.me_eq
  height_eq := h'.height_eq.trans h.height_eq
  others i hi := (h'.others i (h.me_eq ▸ hi)).trans (h.others i hi)
  retains := h.retains.trans h'.retains

/-- A view that differs in the intent and in the own round, revolt and serial only. -/
theorem ofSame (hme : w.me = v.me) (hheight : w.own.height = v.own.height)
    (hothers : ∀ i : Fin n.total, i ≠ v.me → w.statuses[i] = v.statuses[i])
    (hphase : w.own.phase = v.own.phase) (hblock : w.own.block = v.own.block)
    (hslots : w.signatures = v.signatures) : v.Continues w :=
  ⟨hme, hheight, hothers, .inr ⟨hblock, hslots, .inl hphase⟩⟩

theorem withIntent (v : View n) (i : Intent) : v.Continues (v.withIntent i) :=
  .ofSame rfl rfl (fun _ _ => rfl) rfl rfl rfl

theorem drop (h : v.dropHeldBlock = .ok w) : v.Continues w := by
  rcases dropHeldBlock_eq_ok.mp h with ⟨_, rfl⟩ | ⟨hp, serial, _, rfl⟩
  · exact .refl w
  · refine ⟨rfl, by simp, fun i hi => v.statuses_setOwn _ hi, .inl ⟨?_, ?_⟩⟩
    · simp [hp]
    · simp

theorem move (h : Move v w) : v.Continues w := by
  cases h with
  | resync hp hb hi => exact withIntent v _
  | fallBehind hp hb hw => exact (drop hw).trans (withIntent _ _)
  | rotate hr hq hw hround hserial =>
      refine (drop hw).trans (ofSame rfl ?_ (fun i hi => statuses_setOwn _ _ hi) ?_ ?_ rfl)
      · simp
      · simp
      · simp
  | build hp hm => exact withIntent v _
  | fetch hp hm hid hh => exact withIntent v _
  | rest hp => exact withIntent v _
  | prepare hp hq hserial =>
      refine ⟨rfl, by simp, fun i hi => v.statuses_setOwn _ hi, .inr ⟨by simp, rfl, .inr ⟨hp, ?_⟩⟩⟩
      simp
  | decide hp hq => exact withIntent v _
  | ask hp hid hne => exact withIntent v _

/-- **Deriving the intent keeps height, beliefs and whatever is prepared.** -/
theorem recompute (h : v.recompute = .ok w) : v.Continues w :=
  recompute_induction (P := v.Continues) (fun hv hm => hv.trans (move hm))
    (fun hv => hv.trans (ofSame rfl rfl (fun _ _ => rfl) rfl rfl rfl)) (.refl v) h

theorem block_eq (h : v.Continues w) {id : BlockId} (hid : w.own.block = some id) :
    v.own.block = some id := by
  rcases h.retains with ⟨_, _, hnone, _⟩ | ⟨hblock, _⟩
  · exact nomatch hnone.symm.trans hid
  · exact hblock ▸ hid

theorem signatures_eq (h : v.Continues w) {i : Fin n.total} {s : CommitSignature}
    (hs : w.signatures[i] = some s) : v.signatures[i] = some s := by
  rcases h.retains with ⟨_, _, _, hnone⟩ | ⟨_, hslots, _⟩
  · rw [hnone] at hs
    simp at hs
  · exact hslots ▸ hs

theorem prepared (h : v.Continues w) (hp : v.own.phase = .prepared) :
    w.own.phase = .prepared ∧ w.own.block = v.own.block ∧ w.signatures = v.signatures := by
  rcases h.retains with ⟨hnot, _⟩ | ⟨hblock, hslots, hphase | ⟨hheld, _⟩⟩
  · exact absurd hp hnot
  · exact ⟨hphase.trans hp, hblock, hslots⟩
  · exact nomatch hheld.symm.trans hp

theorem waiting (h : v.Continues w) (hp : v.own.phase = .waitBlock) : w.own.phase = .waitBlock := by
  rcases h.retains with ⟨_, hwait, _⟩ | ⟨_, _, hphase | ⟨hheld, _⟩⟩
  · exact hwait
  · exact hphase.trans hp
  · exact nomatch hheld.symm.trans hp

end Continues

end View

/-- A status of the same height that has the block of before, or none in place of one that was not
prepared. -/
def Status.Persists (s t : Status) : Prop :=
  t.height = s.height ∧
    ((s.phase ≠ .prepared ∧ t.phase = .waitBlock ∧ t.block = none) ∨
      (t.block = s.block ∧ (t.phase = s.phase ∨ s.phase = .haveBlock ∧ t.phase = .prepared)))

namespace Status.Persists

variable {s t : Status}

theorem refl (s : Status) : s.Persists s := ⟨rfl, .inr ⟨rfl, .inl rfl⟩⟩

theorem block_eq (h : s.Persists t) {id : BlockId} (hid : t.block = some id) : s.block = some id := by
  rcases h.2 with ⟨_, _, hnone⟩ | ⟨hblock, _⟩
  · exact nomatch hnone.symm.trans hid
  · exact hblock ▸ hid

theorem block_ne_none (h : s.Persists t) (ht : t.block ≠ none) : s.block ≠ none := by
  obtain ⟨id, hid⟩ := Option.ne_none_iff_exists'.mp ht
  rw [h.block_eq hid]
  exact nofun

theorem prepared (h : s.Persists t) (hp : s.phase = .prepared) :
    t.phase = .prepared ∧ t.block = s.block := by
  rcases h.2 with ⟨hnot, _⟩ | ⟨hblock, hphase | ⟨hheld, _⟩⟩
  · exact absurd hp hnot
  · exact ⟨hphase.trans hp, hblock⟩
  · exact nomatch hheld.symm.trans hp

theorem waiting (h : s.Persists t) (hp : s.phase = .waitBlock) : t.phase = .waitBlock := by
  rcases h.2 with ⟨_, hwait, _⟩ | ⟨_, hphase | ⟨hheld, _⟩⟩
  · exact hwait
  · exact hphase.trans hp
  · exact nomatch hheld.symm.trans hp

end Status.Persists

/-- The events after which a validator is on the same height and holds no other block. -/
def ViewEvent.IsQuiet : ViewEvent → Prop
  | .status _ _ | .signature _ _ _ | .revolt | .intentWanted => True
  | .received _ _ | .advanced _ | .committed _ | .built _ _ | .fastForward _ => False

namespace View

variable {n : ValidatorCount} {v w : View n}

theorem Continues.persists (h : v.Continues w) : v.own.Persists w.own := by
  refine ⟨h.height_eq, ?_⟩
  rcases h.retains with ⟨hnot, hwait, hnone, _⟩ | ⟨hblock, _, hphase⟩
  · exact .inl ⟨hnot, hwait, hnone⟩
  · exact .inr ⟨hblock, hphase⟩

theorem handle_quiet {e : ViewEvent} {outcome : Outcome} (hquiet : e.IsQuiet)
    (h : v.handle e = .ok (outcome, w)) : w.me = v.me ∧ v.own.Persists w.own := by
  have hjump : ∀ committed, e ≠ .fastForward committed := by
    rintro committed rfl
    exact hquiet
  rcases handle_ok hjump h with ⟨_, rfl | ⟨_, rfl⟩⟩ | ⟨_, u, heffect, hrec⟩
  · exact ⟨rfl, .refl _⟩
  · exact ⟨rfl, .refl _⟩
  · have hrec := Continues.recompute hrec
    have hu := hrec.persists
    cases heffect with
    | status hpeer hme hnew =>
        rw [own_setStatus hme] at hu
        exact ⟨hrec.me_eq, hu⟩
    | signature hpeer hp hb => exact ⟨hrec.me_eq, hu⟩
    | revolt hserial =>
        rw [own_setOwn] at hu
        exact ⟨hrec.me_eq, hu⟩
    | intentWanted => exact ⟨hrec.me_eq, hu⟩
    | received _ _ => exact hquiet.elim
    | advanced _ _ => exact hquiet.elim
    | committed _ _ _ => exact hquiet.elim
    | built _ _ _ => exact hquiet.elim
    | fastForward _ _ => exact hquiet.elim

/-- Signatures are kept, or lost with the block, and only a signature that is heard comes in. -/
theorem handle_quiet_slots {e : ViewEvent} {outcome : Outcome} (hquiet : e.IsQuiet)
    (h : v.handle e = .ok (outcome, w)) {i : Fin n.total} {s : CommitSignature}
    (hs : w.signatures[i] = some s) :
    v.signatures[i] = some s ∨ ∃ peer id, e = .signature peer id s ∧ n.memberAt? peer = some i := by
  have hjump : ∀ committed, e ≠ .fastForward committed := by
    rintro committed rfl
    exact hquiet
  rcases handle_ok hjump h with ⟨_, rfl | ⟨_, rfl⟩⟩ | ⟨_, u, heffect, hrec⟩
  · exact .inl hs
  · exact .inl hs
  · have hu := (Continues.recompute hrec).signatures_eq hs
    cases heffect with
    | status hpeer hme hnew => exact .inl hu
    | @signature peer j id t hpeer hp hb =>
        by_cases hij : j = i
        · subst hij
          simp only [getElem_member, ValidatorCount.update_eq, Vector.getElem_set_self,
            Option.some.injEq] at hu
          exact .inr ⟨peer, id, by rw [hu], hpeer⟩
        · have hne : (j : Nat) ≠ i := fun he => hij (Fin.ext he)
          simp only [getElem_member, ValidatorCount.update_eq, Vector.getElem_set_ne _ _ hne] at hu
          exact .inl hu
    | revolt hserial => exact .inl hu
    | intentWanted => exact .inl hu
    | received _ _ => exact hquiet.elim
    | advanced _ _ => exact hquiet.elim
    | committed _ _ _ => exact hquiet.elim
    | built _ _ _ => exact hquiet.elim
    | fastForward _ _ => exact hquiet.elim

theorem Effect.me_eq {e : ViewEvent} (h : Effect v e w) : w.me = v.me := by
  cases h <;> rfl

/-- A validator stays the one that it is. -/
theorem handle_me {e : ViewEvent} {outcome : Outcome} (h : v.handle e = .ok (outcome, w)) :
    w.me = v.me :=
  handle_induction (P := fun w => w.me = v.me) (fun hv he => he.me_eq.trans hv) (fun hv _ => hv)
    (fun hv hrec => (Continues.recompute hrec).me_eq.trans hv) rfl h

/-- A validator on a new height has no block. -/
theorem recompute_onHeight {height : Height} {serial : Serial}
    (h : (v.onHeight height serial).recompute = .ok w) :
    w.me = v.me ∧ w.own.height = height ∧ w.own.phase = .waitBlock ∧ w.own.block = none := by
  have hrec := Continues.recompute h
  have hu := hrec.persists
  rw [own_onHeight] at hu
  refine ⟨hrec.me_eq, hu.1, hu.waiting rfl, ?_⟩
  rcases hu.2 with ⟨_, _, hnone⟩ | ⟨hblock, _⟩
  · exact hnone
  · exact hblock

/-- A validator that has just signed a block holds that block or, again, none. -/
theorem recompute_holding {id : BlockId} {signature : CommitSignature} {serial : Serial}
    (h : (v.holding id signature serial).recompute = .ok w) :
    w.me = v.me ∧ w.own.height = v.own.height ∧ ∀ r, w.own.block = some r → r = id := by
  have hrec := Continues.recompute h
  have hu := hrec.persists
  rw [own_holding] at hu
  refine ⟨hrec.me_eq, hu.1, fun r hr => ?_⟩
  exact (Option.some.inj (hu.block_eq hr)).symm

/-- The only signature over a block that was just signed is the own one. -/
theorem recompute_holding_slots {id : BlockId} {signature : CommitSignature} {serial : Serial}
    (h : (v.holding id signature serial).recompute = .ok w) {i : Fin n.total} {s : CommitSignature}
    (hs : w.signatures[i] = some s) : i = v.me ∧ s = signature := by
  have hu := (Continues.recompute h).signatures_eq hs
  rw [signatures_holding] at hu
  by_cases hi : v.me = i
  · subst hi
    simp only [getElem_member, ValidatorCount.update_eq, Vector.getElem_set_self,
      Option.some.injEq] at hu
    exact ⟨rfl, hu.symm⟩
  · have hne : (v.me : Nat) ≠ i := fun he => hi (Fin.ext he)
    simp only [getElem_member, ValidatorCount.update_eq, Vector.getElem_set_ne _ _ hne,
      Vector.getElem_replicate] at hu
    cases hu

/-- A block that was asked for or built is held, or was not wanted any more. -/
theorem handle_signed {e : ViewEvent} {id : BlockId} {signature : CommitSignature} {outcome : Outcome}
    (he : e = .received id signature ∨ e = .built id signature)
    (h : v.handle e = .ok (outcome, w)) :
    (outcome ≠ .accepted ∧ w.me = v.me ∧ w.own = v.own ∧ w.signatures = v.signatures) ∨
      (outcome = .accepted ∧ ∃ serial, (v.holding id signature serial).recompute = .ok w) := by
  have hjump : ∀ committed, e ≠ .fastForward committed := by
    rintro committed rfl
    rcases he with he | he <;> cases he
  rcases handle_ok hjump h with ⟨hrefused, rfl | ⟨_, rfl⟩⟩ | ⟨haccepted, u, heffect, hrec⟩
  · exact .inl ⟨hrefused, rfl, rfl, rfl⟩
  · exact .inl ⟨hrefused, rfl, rfl, rfl⟩
  · refine .inr ⟨haccepted, ?_⟩
    rcases he with rfl | rfl
    · cases heffect
      exact ⟨_, hrec⟩
    · cases heffect
      exact ⟨_, hrec⟩

theorem handle_advanced {height : Height} {outcome : Outcome} (hnext : v.own.height.next = some height)
    (h : v.handle (.advanced height) = .ok (outcome, w)) :
    outcome = .accepted ∧ w.me = v.me ∧ w.own.height = height ∧ w.own.phase = .waitBlock ∧
      w.own.block = none := by
  change v.onAdvanced height = _ at h
  rw [onAdvanced, if_pos hnext, bind_eq_ok] at h
  obtain ⟨u, hadvance, h⟩ := h
  cases h
  obtain ⟨height', serial, hheight, hserial, hrec⟩ := advance_eq_ok.mp hadvance
  cases Option.some.inj (hheight.symm.trans hnext)
  exact ⟨rfl, recompute_onHeight hrec⟩

theorem handle_committed {id : BlockId} {outcome : Outcome} (hb : v.own.block = some id)
    (h : v.handle (.committed id) = .ok (outcome, w)) :
    outcome = .accepted ∧ w.me = v.me ∧ w.own.height.number = v.own.height.number + 1 ∧
      w.own.phase = .waitBlock ∧ w.own.block = none := by
  change v.onCommitted id = _ at h
  rw [onCommitted, if_pos hb, bind_eq_ok] at h
  obtain ⟨u, hadvance, h⟩ := h
  cases h
  obtain ⟨height, serial, hheight, hserial, hrec⟩ := advance_eq_ok.mp hadvance
  obtain ⟨hme, hh, hp, hnone⟩ := recompute_onHeight hrec
  refine ⟨rfl, hme, ?_, hp, hnone⟩
  rw [hh]
  exact Counter.next_eq_some.mp hheight

end View

end QuorumChain
