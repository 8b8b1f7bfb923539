import QuorumChain.Proofs.Plain
import QuorumChain.Proofs.View.Coherence
import QuorumChain.Proofs.View.Continuity

/-! Views after any events that are taken one after the other, none of which breaks down. What every
event keeps is true of them, so their parts agree, and they agree as well if the intent is derived in
fewer steps than it takes. -/

namespace QuorumChain

namespace View

variable {n : ValidatorCount} {u v w : View n} {events : List ViewEvent}

/-- The view after some events. -/
def handleAll : List ViewEvent → View n → Change n (View n)
  | [], v => .ok v
  | e :: rest, v => do
    let (_, w) ← v.handle e
    handleAll rest w

theorem handleAll_cons {e : ViewEvent} :
    u.handleAll (e :: events) = .ok w ↔
      ∃ outcome v, u.handle e = .ok (outcome, v) ∧ v.handleAll events = .ok w := by
  rw [handleAll, bind_eq_ok, Prod.exists]

theorem handleAll_append {later : List ViewEvent} :
    u.handleAll (events ++ later) = .ok w ↔
      ∃ v, u.handleAll events = .ok v ∧ v.handleAll later = .ok w := by
  induction events generalizing u with
  | nil => exact ⟨fun h => ⟨u, rfl, h⟩, fun ⟨_, hu, h⟩ => (Except.ok.inj hu) ▸ h⟩
  | cons e rest ih =>
      rw [List.cons_append, handleAll_cons]
      simp only [ih, handleAll_cons]
      constructor
      · rintro ⟨outcome, x, hx, v, hv, h⟩
        exact ⟨v, ⟨outcome, x, hx, hv⟩, h⟩
      · rintro ⟨v, ⟨outcome, x, hx, hv⟩, h⟩
        exact ⟨outcome, x, hx, v, hv, h⟩

/-- What every event keeps is true after any events. -/
theorem handleAll_induction {P : View n → Prop}
    (hstep : ∀ {v w : View n} {e : ViewEvent} {outcome : Outcome}, P v →
      v.handle e = .ok (outcome, w) → P w)
    (hu : P u) (h : u.handleAll events = .ok v) : P v := by
  induction events generalizing u with
  | nil =>
      cases h
      exact hu
  | cons e rest ih =>
      obtain ⟨outcome, w, hw, hrest⟩ := handleAll_cons.mp h
      exact ih (hstep hu hw) hrest

theorem Coherent.handleAll (hu : u.Coherent) (h : u.handleAll events = .ok v) : v.Coherent :=
  handleAll_induction Coherent.handle hu h

theorem handleAll_me (h : u.handleAll events = .ok v) : v.me = u.me :=
  handleAll_induction (P := fun w => w.me = u.me) (fun hv hw => (handle_me hw).trans hv) rfl h

theorem Effect.cap_eq {e : ViewEvent} (h : Effect v e w) : w.cap = v.cap := by
  cases h <;> rfl

theorem recompute_cap (h : v.recompute = .ok w) : w.cap = v.cap :=
  recompute_induction (P := fun w => w.cap = v.cap) (fun hv hm => hm.caps_eq.1.trans hv) (fun hv => hv) rfl h

theorem handleAll_cap (h : u.handleAll events = .ok v) : v.cap = u.cap :=
  handleAll_induction (P := fun w => w.cap = u.cap)
    (fun hv hw => handle_induction (P := fun w => w.cap = u.cap) (fun hv he => he.cap_eq.trans hv)
      (fun hv _ => hv) (fun hv hrec => (recompute_cap hrec).trans hv) hv hw) rfl h

theorem start_cap {me : PeerIndex} {height : Height} {cap : Nat} {serial : Serial}
    (h : View.start n me height cap serial = .ok v) : v.cap = cap := by
  unfold View.start at h
  split at h
  · cases h
  · split at h
    · cases h
    · cases h
      rfl

namespace Coherent

/-- Signatures are there exactly for a block. -/
theorem waits_iff_slots (hv : v.Coherent) :
    v.own.phase = .waitBlock ↔ ∀ i : Fin n.total, v.signatures[i] = none := by
  constructor
  · exact hv.waiting_slots
  · intro hslots
    by_contra hp
    have hown := hv.own_slot hp
    rw [hslots] at hown
    cases hown

theorem held_iff (hv : v.Coherent) (hp : v.own.phase = .haveBlock) (i : Fin n.total) :
    (v.signatures[i]).isSome = true ↔ i = v.me := by
  constructor
  · intro hi
    by_contra hne
    rw [hv.held_slots hp i hne] at hi
    cases hi
  · rintro rfl
    exact hv.own_slot (by simp [hp])

end Coherent

section Start

variable {me : PeerIndex} {height : Height} {cap : Nat} {serial : Serial}

/-- **Phase, block, signatures and intent agree** after any events, however few steps are allowed for
deriving the intent. -/
theorem parts_agree (hstart : View.start n me height cap serial = .ok u)
    (hrun : u.handleAll events = .ok v) :
    (v.own.phase = .waitBlock ↔ v.own.block = none) ∧
    (v.own.phase = .waitBlock ↔ ∀ i : Fin n.total, v.signatures[i] = none) ∧
    (v.own.phase = .haveBlock →
      ∀ i : Fin n.total, (v.signatures[i]).isSome = true ↔ n.indexOf i = me) ∧
    (v.own.phase = .prepared →
      ∀ i : Fin n.total, n.indexOf i = me → (v.signatures[i]).isSome = true) ∧
    (v.intent = .buildBlock → v.own.phase = .waitBlock) ∧
    (∀ id, v.intent = .fetchUnfinishedBlock id → v.own.phase = .waitBlock) ∧
    (∀ h, v.intent = .fetchBlockAtHeight h → v.own.phase = .waitBlock ∧ h = v.own.height) ∧
    (v.intent = .commitBlock → v.own.phase = .prepared ∧ n.threshold ≤ v.recorded.length) ∧
    (∀ id peers, v.intent = .fetchCommitSignature id peers →
      v.own.phase = .prepared ∧ v.own.block = some id ∧ (∃ i, i ∈ peers) ∧
        ∀ i ∈ peers, i.number < n.total ∧ i ≠ me) := by
  have hv := (Coherent.start hstart).handleAll hrun
  have hfits := hv.intent_fits
  have hme : ∀ i, n.indexOf i = me ↔ i = v.me := by
    intro i
    rw [ValidatorCount.memberAt?_eq_some.mp (start_ok hstart).1, handleAll_me hrun]
    exact ValidatorCount.indexOf_inj
  refine ⟨hv.waits_iff, hv.waits_iff_slots, fun hp i => ?_, fun hp i hi => ?_, fun hi => ?_,
    fun id hi => ?_, fun h hi => ?_, fun hi => ?_, fun id peers hi => ?_⟩
  · rw [hme]
    exact hv.held_iff hp i
  · rw [(hme i).mp hi]
    exact hv.own_slot (by simp [hp])
  · rw [hi] at hfits
    exact hfits
  · rw [hi] at hfits
    exact hfits
  · rw [hi] at hfits
    exact hfits
  · rw [hi] at hfits
    exact hfits
  · rw [hi] at hfits
    obtain ⟨hp, hid, hne, hpeers⟩ := hfits
    refine ⟨hp, hid, ?_, fun i hi => ?_⟩
    · by_contra hnone
      rw [(PeerSet.isEmpty_iff peers).mpr (not_exists.mp hnone)] at hne
      cases hne
    · obtain ⟨j, hj, rfl⟩ := hpeers i hi
      exact ⟨j.isLt, fun heq => hj ((hme j).mp heq)⟩

end Start

section Plain

/-- What holds of a view after some events and one more can be found out by computing it. -/
theorem exists_handled (u : View n) (events : List ViewEvent) (e : ViewEvent)
    {P : View n → Outcome → View n → Prop} [∀ v outcome w, Decidable (P v outcome w)]
    (h : (match (do
        let v ← u.handleAll events
        return (v, ← v.handle e) : Change n (View n × Outcome × View n)) with
      | .ok r => decide (P r.1 r.2.1 r.2.2)
      | .error _ => false) = true) :
    ∃ v outcome w, u.handleAll events = .ok v ∧ v.handle e = .ok (outcome, w) ∧ P v outcome w := by
  split at h
  next r hr =>
    simp only [bind_eq_ok, pure_eq_ok] at hr
    obtain ⟨v, hrun, ⟨outcome, w⟩, hlast, rfl⟩ := hr
    exact ⟨v, outcome, w, hrun, hlast, of_decide_eq_true h⟩
  · cases h

/-- Validator 3 of the quartet, which has heard of nobody. -/
def plainView : View quartet where
  me := 3
  statuses := quartet.update (Vector.replicate quartet.total .unknown) 3 (.start .zero .zero)
  signatures := Vector.replicate quartet.total none
  intent := .doNothing
  cap := 3
  capHits := 0

def plainId : BlockId := ⟨.fill 32 7⟩

/-- A validator reports how far it is with the block. -/
def reports (i : Fin quartet.total) (phase : Phase) (serial : Nat) : ViewEvent :=
  .status (quartet.indexOf i) ⟨.zero, .zero, phase, some plainId, false, .ofNatClamped serial⟩

/-- Validator 3 gets the block of validator 0, hears that validator 1 holds it, and that validator 1 has
seen a quorum hold it. -/
def preparedRun : List ViewEvent :=
  [reports 0 .haveBlock 1, .received plainId ⟨⟨.fill 32 4⟩, ⟨.fill 64 4⟩⟩, reports 1 .haveBlock 1,
    reports 1 .prepared 2]

theorem parts_agree_prepared :
    ∃ u v, View.start quartet (quartet.indexOf 3) .zero 3 .zero = .ok u ∧
      u.handleAll preparedRun = .ok v ∧ v.own.phase = .prepared ∧ v.own.block = some plainId ∧
      (v.signatures[(3 : Fin quartet.total)]).isSome = true ∧
      ∃ peers, v.intent = .fetchCommitSignature plainId peers ∧ quartet.indexOf 1 ∈ peers ∧
        ∀ i ∈ peers, i.number < quartet.total ∧ i ≠ quartet.indexOf 3 := by
  have hstart : View.start quartet (quartet.indexOf 3) .zero 3 .zero = .ok plainView := rfl
  obtain ⟨v, hrun, hi⟩ := exists_ok (x := plainView.handleAll preparedRun)
    (P := fun v => v.intent = .fetchCommitSignature plainId (.ofList [quartet.indexOf 1]))
    (by decide +kernel)
  obtain ⟨_, _, _, hown, _, _, _, _, hask⟩ := parts_agree hstart hrun
  obtain ⟨hp, hid, _, hpeers⟩ := hask _ _ hi
  exact ⟨plainView, v, hstart, hrun, hp, hid, hown hp 3 rfl, _, hi,
    (PeerSet.mem_ofList _ _).mpr List.mem_cons_self, hpeers⟩

end Plain

end View

end QuorumChain
