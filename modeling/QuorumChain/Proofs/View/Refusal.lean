import QuorumChain.Proofs.View.Due

/-! Events that are refused. They leave a view as it is, but for one that tells of a block which the
validator was not to build: that ends the intent to build. With enough steps for deriving the intent it
never happens, since whoever intends to build is the primary. Rounds and heights change under an intent
only on the way to the next one. -/

namespace QuorumChain

namespace View

variable {n : ValidatorCount} {u v w : View n} {e : ViewEvent} {outcome : Outcome}

/-- What an event leaves behind that is not taken. -/
theorem handle_refused (h : v.handle e = .ok (outcome, w)) (hrefused : outcome ≠ .accepted) :
    w = v ∨ (outcome = .rejected ∧ (∃ id signature, e = .built id signature) ∧
      v.intent = .buildBlock ∧ v.isPrimary = false ∧ w = v.withIntent .doNothing) := by
  have hstays : ∀ {taken : Prop},
      (outcome ≠ .accepted ∧ w = v) ∨ (outcome = .accepted ∧ taken) → w = v := by
    rintro taken (⟨_, hw⟩ | ⟨haccepted, _⟩)
    · exact hw
    · exact absurd haccepted hrefused
  cases e with
  | status peer s => exact .inl (hstays (onStatus_ok h))
  | received id signature => exact .inl (hstays (onReceived_ok h))
  | advanced height => exact .inl (hstays (onAdvanced_ok h))
  | committed id => exact .inl (hstays (onCommitted_ok h))
  | built id signature =>
      rcases onBuilt_ok h with ⟨_, hw⟩ | ⟨hrejected, hi, hm, hw⟩ | ⟨haccepted, _⟩
      · exact .inl hw
      · exact .inr ⟨hrejected, ⟨id, signature, rfl⟩, hi, hm, hw⟩
      · exact absurd haccepted hrefused
  | signature peer id signature => exact .inl (hstays (onSignature_ok h))
  | revolt => exact absurd (onRevolt_ok h).1 hrefused
  | fastForward committed => exact .inl (hstays (onFastForward_ok h))
  | intentWanted =>
      obtain ⟨x, _, hx⟩ := bind_eq_ok.mp h
      cases hx
      exact absurd rfl hrefused

/-- Only the primary is due to build. -/
theorem isPrimary_of_due (h : v.due = .buildBlock) : v.isPrimary = true := by
  have hwarrants := v.warrants_due
  rw [h] at hwarrants
  exact decide_eq_true hwarrants

theorem isPrimary_eq (hme : w.me = v.me) (hheight : w.own.height = v.own.height)
    (hround : w.own.round = v.own.round) : w.isPrimary = v.isPrimary := by
  rw [Bool.eq_iff_iff, isPrimary, isPrimary, decide_eq_true_eq, decide_eq_true_eq, primary, primary,
    hme, hheight, hround]

/-- A view of which the intent is always derived to the end, and that intends to build only as the
primary. -/
structure Entitled (v : View n) : Prop where
  coherent : v.Coherent
  cap_le : 3 ≤ v.cap
  builds : v.intent = .buildBlock → v.isPrimary = true

namespace Entitled

/-- The primary is the same as long as height and round are. -/
theorem transfer (hv : v.Entitled) (hw : w.Coherent) (hcap : w.cap = v.cap) (hme : w.me = v.me)
    (hheight : w.own.height = v.own.height) (hround : w.own.round = v.own.round)
    (hi : w.intent = v.intent) : w.Entitled where
  coherent := hw
  cap_le := hcap ▸ hv.cap_le
  builds hbuild := by
    rw [isPrimary_eq hme hheight hround]
    exact hv.builds (hi ▸ hbuild)

theorem ofOther (hv : v.Entitled) (hw : w.Coherent) (hcap : w.cap = v.cap)
    (hi : w.intent ≠ .buildBlock) : w.Entitled where
  coherent := hw
  cap_le := hcap ▸ hv.cap_le
  builds hbuild := absurd hbuild hi

theorem start {me : PeerIndex} {height : Height} {cap : Nat} {serial : Serial}
    (h : View.start n me height cap serial = .ok v) (hcap : 3 ≤ cap) : v.Entitled where
  coherent := .start h
  cap_le := start_cap h ▸ hcap
  builds hbuild := by
    rw [(start_ok h).2.2.2.2] at hbuild
    cases hbuild

theorem effect (hv : v.Entitled) (h : Effect v e w) : w.Entitled := by
  have hw := hv.coherent.effect h
  have hcap := h.cap_eq
  cases h with
  | @status _ i s hpeer hme hnew =>
      have hown : ({ v with statuses := n.update v.statuses i s } : View n).own = v.own :=
        own_setStatus hme
      exact hv.transfer hw hcap rfl (congrArg Status.height hown) (congrArg Status.round hown) rfl
  | received hi hserial => exact hv.ofOther hw hcap nofun
  | advanced hheight hserial => exact hv.ofOther hw hcap nofun
  | committed hb hheight hserial => exact hv.ofOther hw hcap nofun
  | built hi hm hserial => exact hv.ofOther hw hcap nofun
  | signature hpeer hp hb => exact hv.transfer hw hcap rfl rfl rfl rfl
  | revolt hserial => exact hv.transfer hw hcap rfl (by simp) (by simp) rfl
  | fastForward hheight hserial => exact hv.ofOther hw hcap nofun
  | intentWanted => exact hv

/-- On the way the intent to build may outlast a round, but not to the end. -/
theorem recompute (hv : v.Entitled) (h : v.recompute = .ok w) : w.Entitled where
  coherent := hv.coherent.recompute h
  cap_le := recompute_cap h ▸ hv.cap_le
  builds hbuild := by
    rw [hv.coherent.recompute_due hv.cap_le h] at hbuild
    exact isPrimary_of_due hbuild

theorem handle (hv : v.Entitled) (h : v.handle e = .ok (outcome, w)) : w.Entitled :=
  handle_induction effect
    (fun hv _ => hv.ofOther (hv.coherent.withIntent trivial) rfl nofun) recompute hv h

end Entitled

section Start

variable {me : PeerIndex} {height : Height} {cap : Nat} {serial : Serial} {events : List ViewEvent}

/-- **A refused event leaves no trace**, but that the message of a block may end the intent to build it.
With a cap of three or more not even that happens, since only the primary intends to build. -/
theorem refused_without_trace (hstart : View.start n me height cap serial = .ok u)
    (hrun : u.handleAll events = .ok v) (h : v.handle e = .ok (outcome, w)) :
    (outcome ≠ .accepted → w = v ∨ (outcome = .rejected ∧
      (∃ id signature, e = .built id signature) ∧ w = v.withIntent .doNothing)) ∧
    (3 ≤ cap → (v.intent = .buildBlock → n.indexOf v.primary = me) ∧
      ∀ id signature, e = .built id signature → outcome ≠ .rejected) := by
  refine ⟨fun hrefused => ?_, fun hcap => ?_⟩
  · rcases handle_refused h hrefused with hw | ⟨hrejected, hbuilt, _, _, hw⟩
    · exact .inl hw
    · exact .inr ⟨hrejected, hbuilt, hw⟩
  have hv : v.Entitled := handleAll_induction Entitled.handle (.start hstart hcap) hrun
  refine ⟨fun hi => ?_, ?_⟩
  · have hturn : v.primary = v.me := of_decide_eq_true (hv.builds hi)
    rw [hturn, handleAll_me hrun]
    exact (ValidatorCount.memberAt?_eq_some.mp (start_ok hstart).1).symm
  · rintro id signature rfl rfl
    rcases onBuilt_ok h with ⟨hstale, _⟩ | ⟨_, hi, hm, _⟩ | ⟨haccepted, _⟩
    · cases hstale
    · rw [hv.builds hi] at hm
      cases hm
    · cases haccepted

end Start

section Plain

/-- Validator 0 of the quartet, which has heard of nobody and may take so many steps. -/
def openingView (cap : Nat) : View quartet where
  me := 0
  statuses := quartet.update (Vector.replicate quartet.total .unknown) 0 (.start .zero .zero)
  signatures := Vector.replicate quartet.total none
  intent := .doNothing
  cap
  capHits := 0

theorem start_openingView (cap : Nat) :
    View.start quartet (quartet.indexOf 0) .zero cap .zero = .ok (openingView cap) := rfl

/-- A validator reports that it wants the first round to end. -/
def deposes (i : Fin quartet.total) : ViewEvent :=
  .status (quartet.indexOf i) ⟨.zero, .zero, .waitBlock, none, true, .ofNatClamped 1⟩

/-- Validator 0 means to build the block of the first round, which ends before that. -/
def deposedRun : List ViewEvent := [.intentWanted, .revolt, deposes 1, deposes 2]

def lateBlock : ViewEvent := .built plainId ⟨⟨.fill 32 1⟩, ⟨.fill 64 1⟩⟩

/-- The block comes too late. If a single step is allowed, the intent to build it is still there, and ends
with it; if three are, it has ended with the round. -/
theorem refused_without_trace_deposed :
    (∃ u v w, View.start quartet (quartet.indexOf 0) .zero 1 .zero = .ok u ∧
      u.handleAll deposedRun = .ok v ∧ v.handle lateBlock = .ok (.rejected, w) ∧
      v.intent = .buildBlock ∧ w = v.withIntent .doNothing) ∧
    ∃ u v w outcome, View.start quartet (quartet.indexOf 0) .zero 3 .zero = .ok u ∧
      u.handleAll deposedRun = .ok v ∧ v.handle lateBlock = .ok (outcome, w) ∧
      outcome ≠ .accepted ∧ outcome ≠ .rejected ∧ w = v := by
  constructor
  · obtain ⟨v, outcome, w, hrun, hlate, hi, rfl, hw⟩ := exists_handled (openingView 1) deposedRun lateBlock
      (P := fun v outcome w => v.intent = .buildBlock ∧ outcome = .rejected ∧ w.intent = .doNothing)
      (by decide +kernel)
    refine ⟨_, v, w, start_openingView 1, hrun, hlate, hi, ?_⟩
    rcases (refused_without_trace (start_openingView 1) hrun hlate).1 nofun with rfl | ⟨_, _, heq⟩
    · exact nomatch hi.symm.trans hw
    · exact heq
  · obtain ⟨v, outcome, w, hrun, hlate, houtcome⟩ := exists_handled (openingView 3) deposedRun lateBlock
      (P := fun _ outcome _ => outcome ≠ .accepted) (by decide +kernel)
    obtain ⟨hleaves, hentitled⟩ := refused_without_trace (start_openingView 3) hrun hlate
    have hnever := (hentitled (Nat.le_refl 3)).2 _ _ rfl
    refine ⟨_, v, w, outcome, start_openingView 3, hrun, hlate, houtcome, hnever, ?_⟩
    rcases hleaves houtcome with hw | ⟨hrejected, _⟩
    · exact hw
    · exact absurd hrejected hnever

end Plain

end View

end QuorumChain
