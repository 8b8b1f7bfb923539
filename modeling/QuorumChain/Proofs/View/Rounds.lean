import Mathlib.Data.Nat.ModEq
import QuorumChain.Proofs.View.Climb
import QuorumChain.Proofs.View.Refusal
import QuorumChain.Proofs.View.Reports

/-! Rounds follow one another without a gap. A round of a height ends only for a validator that revolts
against it, as one of enough validators to decide, and the next round is the one after it; otherwise only a
greater height starts over with round 0. So the validators take turns as primaries: each of them has its turn
in any rounds that are as many as there are validators, and no validator gets around it. -/

namespace QuorumChain

namespace ValidatorCount

variable {n : ValidatorCount} (hpos : 0 < n.total) {height : Height} {round next : Round} {first : Nat}

/-- After a validator comes the next one, and after the last one the first. -/
theorem primary_next (h : round.next = some next) :
    (n.primary hpos height next).val = ((n.primary hpos height round).val + 1) % n.total := by
  show (height.number + next.number) % n.total = ((height.number + round.number) % n.total + 1) % n.total
  rw [Counter.next_eq_some.mp h, Nat.mod_add_mod, Nat.add_assoc]

theorem primary_inj (h : n.primary hpos height round = n.primary hpos height next)
    (hround : first ≤ round.number ∧ round.number < first + n.total)
    (hnext : first ≤ next.number ∧ next.number < first + n.total) : round = next := by
  have hmod : height.number + round.number ≡ height.number + next.number [MOD n.total] := Fin.val_eq_of_eq h
  have hmod : round.number ≡ next.number [MOD n.total] := Nat.ModEq.add_left_cancel' _ hmod
  exact Counter.ext (hmod.eq_of_abs_lt (abs_lt.mpr ⟨by omega, by omega⟩))

/-- **Everybody's turn comes once** in as many consecutive rounds as there are validators. -/
theorem existsUnique_primary (height : Height) (hlast : first + n.total ≤ 2 ^ 64) (i : Fin n.total) :
    ∃! round : Round, (first ≤ round.number ∧ round.number < first + n.total) ∧
      n.primary hpos height round = i := by
  -- how many validators come before it, from the primary of the first of the rounds on
  let ahead := (i.val + (n.total - (height.number + first) % n.total)) % n.total
  have hahead : ahead < n.total := Nat.mod_lt _ hpos
  have hturn : (height.number + (first + ahead)) % n.total = i.val := by
    have hle : (height.number + first) % n.total ≤ n.total := Nat.le_of_lt (Nat.mod_lt _ hpos)
    calc (height.number + (first + ahead)) % n.total
        = ((height.number + first) + ahead) % n.total := by rw [Nat.add_assoc]
      _ = ((height.number + first) % n.total + (i.val + (n.total - (height.number + first) % n.total)))
            % n.total := by rw [Nat.add_mod_mod, Nat.mod_add_mod]
      _ = (i.val + n.total) % n.total := by congr 1; omega
      _ = i.val := by rw [Nat.add_mod_right, Nat.mod_eq_of_lt i.isLt]
  refine ⟨⟨first + ahead, by omega⟩, ⟨⟨Nat.le_add_right _ _, Nat.add_lt_add_left hahead _⟩, Fin.ext hturn⟩, ?_⟩
  rintro round ⟨hround, hprimary⟩
  refine primary_inj hpos (hprimary.trans ?_) hround ⟨Nat.le_add_right _ _, Nat.add_lt_add_left hahead _⟩
  exact (Fin.ext hturn).symm

end ValidatorCount

/-- The height, the round and the revolt against it are the same. -/
structure Status.SameRound (s t : Status) : Prop where
  height_eq : t.height = s.height
  round_eq : t.round = s.round
  revolting_eq : t.revolting = s.revolting

theorem Status.SameRound.trans {s t u : Status} (h : s.SameRound t) (h' : t.SameRound u) : s.SameRound u where
  height_eq := h'.height_eq.trans h.height_eq
  round_eq := h'.round_eq.trans h.round_eq
  revolting_eq := h'.revolting_eq.trans h.revolting_eq

/-- Where a validator is. -/
def Status.place (s : Status) : Height × Round := (s.height, s.round)

/-- A status of a validator and a later one: it never comes back to a round, and a revolt lasts as long as the
round. -/
def Status.LeadsTo (s t : Status) : Prop :=
  s.height < t.height ∨ (s.height = t.height ∧
    (s.round < t.round ∨ (s.round = t.round ∧ (s.revolting = true → t.revolting = true))))

namespace Status.LeadsTo

variable {s t u : Status}

theorem refl (s : Status) : s.LeadsTo s := .inr ⟨rfl, .inr ⟨rfl, id⟩⟩

theorem trans (h : s.LeadsTo t) (h' : t.LeadsTo u) : s.LeadsTo u := by
  simp only [LeadsTo, Counter.lt_def, Counter.ext_iff] at h h' ⊢
  grind

theorem place_eq (h : s.LeadsTo t) (h' : t.LeadsTo u) (hplace : u.place = s.place) : t.place = s.place := by
  simp only [LeadsTo, place, Prod.mk.injEq, Counter.lt_def, Counter.ext_iff] at h h' hplace ⊢
  omega

theorem revolting (h : s.LeadsTo t) (hplace : t.place = s.place) (hr : s.revolting = true) : t.revolting = true := by
  simp only [LeadsTo, place, Prod.mk.injEq, Counter.lt_def, Counter.ext_iff] at h hplace
  grind

end Status.LeadsTo

namespace View

variable {n : ValidatorCount} {u v w : View n} {e : ViewEvent} {outcome : Outcome} {events : List ViewEvent}
  {me : Fin n.total} {own own' : Status} {statuses statuses' : Vector Status n.total}

/-- Enough validators to decide are done with the round of one of them: all others are on its height, and in
a higher round or revolting in the same one. -/
def Abandoned (me : Fin n.total) (own : Status) (statuses : Vector Status n.total) : Prop :=
  ∃ S : Finset (Fin n.total), n.threshold ≤ S.card ∧ me ∈ S ∧ ∀ i ∈ S, i ≠ me →
    statuses[i].height = own.height ∧
      (own.round < statuses[i].round ∨ (statuses[i].round = own.round ∧ statuses[i].revolting = true))

theorem Abandoned.transfer (h : Abandoned me own statuses) (hheight : own'.height = own.height)
    (hround : own'.round = own.round)
    (hothers : ∀ i : Fin n.total, i ≠ me → statuses'[i] = statuses[i]) : Abandoned me own' statuses' := by
  obtain ⟨S, hmany, hme, hS⟩ := h
  refine ⟨S, hmany, hme, fun i hi hne => ?_⟩
  rw [hothers i hne, hheight, hround]
  exact hS i hi hne

theorem supportsRevolt_iff {own s : Status} : supportsRevolt own s = true ↔
    s.height = own.height ∧ (own.round < s.round ∨ (s.round = own.round ∧ s.revolting = true)) := by
  simp only [supportsRevolt, Bool.and_eq_true, Bool.or_eq_true, decide_eq_true_eq]

/-- A revolt that is counted has the own voice. -/
theorem abandoned_of_count (hr : v.own.revolting = true) (hq : v.quorum ≤ v.count (supportsRevolt v.own)) :
    Abandoned v.me v.own v.statuses := by
  let supporters := (List.finRange n.total).filter fun i => supportsRevolt v.own v.statuses[i]
  have hmem : ∀ i, i ∈ supporters.toFinset ↔ supportsRevolt v.own v.statuses[i] = true := fun i => by
    rw [List.mem_toFinset, List.mem_filter, and_iff_right (List.mem_finRange i)]
  have hcount : v.count (supportsRevolt v.own) = supporters.toFinset.card := by
    rw [List.toFinset_card_of_nodup ((List.nodup_finRange _).filter _), ← List.countP_eq_length_filter, count,
      ← Vector.countP_toList, toList_members, List.countP_map]
    rfl
  refine ⟨supporters.toFinset, hcount ▸ hq, (hmem v.me).mpr ?_, fun i hi _ => ?_⟩
  · exact supportsRevolt_iff.mpr ⟨rfl, .inr ⟨rfl, hr⟩⟩
  · exact supportsRevolt_iff.mp ((hmem i).mp hi)

/-- The round ends, and the one after it begins with another primary: enough validators, according to some
statuses, are done with it. -/
structure EndsRound (v : View n) (statuses : Vector Status n.total) (w : View n) : Prop where
  abandoned : Abandoned v.me v.own statuses
  height_eq : w.own.height = v.own.height
  round_next : v.own.round.next = some w.own.round
  ended : w.own.revolting = false
  primary_eq : w.primary.val = (v.primary.val + 1) % n.total

namespace EndsRound

theorem of (habandoned : Abandoned v.me v.own statuses) (hheight : w.own.height = v.own.height)
    (hround : v.own.round.next = some w.own.round) (hended : w.own.revolting = false) :
    v.EndsRound statuses w where
  abandoned := habandoned
  height_eq := hheight
  round_next := hround
  ended := hended
  primary_eq := by
    rw [primary, primary, hheight]
    exact ValidatorCount.primary_next v.size_pos hround

theorem after (h : v.EndsRound statuses u) (hw : u.own.SameRound w.own) : v.EndsRound statuses w :=
  of h.abandoned (hw.height_eq.trans h.height_eq) (hw.round_eq ▸ h.round_next) (hw.revolting_eq.trans h.ended)

theorem before (h : u.EndsRound statuses w) (hme : u.me = v.me) (hheight : u.own.height = v.own.height)
    (hround : u.own.round = v.own.round)
    (hothers : ∀ i : Fin n.total, i ≠ u.me → statuses'[i] = statuses[i]) : v.EndsRound statuses' w :=
  of (hme ▸ h.abandoned.transfer hheight.symm hround.symm hothers) (h.height_eq.trans hheight)
    (hround ▸ h.round_next) h.ended

end EndsRound

theorem dropHeldBlock_sameRound (h : v.dropHeldBlock = .ok w) : v.own.SameRound w.own := by
  rcases dropHeldBlock_eq_ok.mp h with ⟨_, rfl⟩ | ⟨_, serial, _, rfl⟩
  · exact ⟨rfl, rfl, rfl⟩
  · rw [own_clearSignatures, own_setOwn]
    exact ⟨rfl, rfl, rfl⟩

/-- **A round ends by a successful revolt only**, and then it is the next one that begins. -/
theorem Move.sameRound_or_ends (h : Move v w) :
    v.own.SameRound w.own ∨ (v.own.revolting = true ∧ v.EndsRound v.statuses w) := by
  cases h with
  | fallBehind hp hb hw => exact .inl (dropHeldBlock_sameRound hw :)
  | rotate hr hq hw hround hserial =>
      have hdrop := dropHeldBlock_sameRound hw
      refine .inr ⟨hr, .of (abandoned_of_count hr hq) ?_ ?_ ?_⟩
      · rw [own_setOwn]
        exact hdrop.height_eq
      · rw [own_setOwn, ← hdrop.round_eq]
        exact hround
      · rw [own_setOwn]
  | prepare hp hq hserial =>
      rw [own_setOwn]
      exact .inl ⟨rfl, rfl, rfl⟩
  | _ => exact .inl ⟨rfl, rfl, rfl⟩

/-- Deriving the intent ends one round at most, since the revolt is over with it. -/
theorem recompute_sameRound_or_ends (h : v.recompute = .ok w) :
    v.own.SameRound w.own ∨ (v.own.revolting = true ∧ v.EndsRound v.statuses w) := by
  refine (recompute_induction (P := fun x => v.Continues x ∧
    (v.own.SameRound x.own ∨ (v.own.revolting = true ∧ v.EndsRound v.statuses x))) ?_ (fun hx => ?_)
    ⟨.refl v, .inl ⟨rfl, rfl, rfl⟩⟩ h).2
  · rintro x y ⟨hx, hturn⟩ hmove
    refine ⟨hx.trans (.move hmove), ?_⟩
    rcases hmove.sameRound_or_ends with hsame | ⟨hr, hends⟩
    · exact hturn.imp (·.trans hsame) (And.imp_right (·.after hsame))
    -- the revolt that ended one round is not there to end another one
    · rcases hturn with hsame | ⟨_, hends'⟩
      · exact .inr ⟨hsame.revolting_eq ▸ hr, hends.before hx.me_eq hsame.height_eq hsame.round_eq
          fun i hi => (hx.others i (hx.me_eq ▸ hi)).symm⟩
      · exact nomatch hends'.ended.symm.trans hr
  · obtain ⟨hx, hturn⟩ := hx
    refine ⟨hx.trans (.ofSame rfl rfl (fun _ _ => rfl) rfl rfl rfl), ?_⟩
    exact hturn.imp id (And.imp_right (·.after ⟨rfl, rfl, rfl⟩))

/-- What an event makes of the own round. -/
inductive Turns (v : View n) (e : ViewEvent) (w : View n) : Prop
  | keeps (hheight : w.own.height = v.own.height) (hround : w.own.round = v.own.round)
      (hrevolting : v.own.revolting = true → w.own.revolting = true)
  | ends (hrevolting : v.own.revolting = true ∨ e = .revolt) (hends : v.EndsRound w.statuses w)
  | ascends (hup : v.own.height < w.own.height) (hround : w.own.round = .zero) (hcalm : w.own.revolting = false)

theorem Reaches.turns {height : Height} {serial : Serial} (hup : v.own.height < height)
    (h : v.Reaches height serial w) : v.Turns e w := by
  have hown := h.own_eq
  exact .ascends (hown ▸ hup) (by rw [hown]; rfl) (by rw [hown]; rfl)

theorem turns_of_advance (h : v.advance = .ok w) : v.Turns e w := by
  obtain ⟨height, serial, hheight, _, hreaches⟩ := Reaches.of_advance h
  exact hreaches.turns (Counter.lt_of_next hheight)

theorem Turns.refl (v : View n) (e : ViewEvent) : v.Turns e v := .keeps rfl rfl id

theorem Effect.turns (h : Effect v e u) (hw : u.recompute = .ok w) : v.Turns e w := by
  have hothers := (Continues.recompute hw).others
  -- where the event does not touch height and round, they change as deriving the intent changes them
  have hstays : u.me = v.me → u.own.height = v.own.height → u.own.round = v.own.round →
      (u.own.revolting = v.own.revolting ∨ (e = .revolt ∧ u.own.revolting = true)) → v.Turns e w := by
    intro hme hheight hround hrevolt
    rcases recompute_sameRound_or_ends hw with hsame | ⟨hr, hends⟩
    · refine .keeps (hsame.height_eq.trans hheight) (hsame.round_eq.trans hround) fun hr => ?_
      rw [hsame.revolting_eq]
      rcases hrevolt with heq | ⟨_, hrevolting⟩
      · exact heq.trans hr
      · exact hrevolting
    · refine .ends ?_ (hends.before hme hheight hround hothers)
      rcases hrevolt with heq | ⟨he, _⟩
      · exact .inl (heq.symm.trans hr)
      · exact .inr he
  cases h with
  | status hpeer hme hnew =>
      exact hstays rfl (by rw [own_setStatus hme]) (by rw [own_setStatus hme]) (.inl (by rw [own_setStatus hme]))
  | received hi hserial => exact hstays rfl (by simp) (by simp) (.inl (by simp))
  | built hi hm hserial => exact hstays rfl (by simp) (by simp) (.inl (by simp))
  | advanced hheight hserial => exact turns_of_advance (advance_eq_ok.mpr ⟨_, _, hheight, hserial, hw⟩)
  | committed hb hheight hserial => exact turns_of_advance (advance_eq_ok.mpr ⟨_, _, hheight, hserial, hw⟩)
  | fastForward hheight hserial => exact turns_of_advance (advance_eq_ok.mpr ⟨_, _, hheight, hserial, hw⟩)
  | signature hpeer hp hb => exact hstays rfl rfl rfl (.inl rfl)
  | revolt hserial => exact hstays rfl (by simp) (by simp) (.inr ⟨rfl, by simp⟩)
  | intentWanted => exact hstays rfl rfl rfl (.inl rfl)

/-- **An event ends one round at most**, for which it takes a quorum, or it starts over on a greater
height. -/
theorem handle_turns (h : v.handle e = .ok (outcome, w)) : v.Turns e w := by
  by_cases hjump : ∃ committed, e = .fastForward committed
  · obtain ⟨committed, rfl⟩ := hjump
    rcases onFastForward_ok h with ⟨_, rfl⟩ | ⟨_, next, _, _, hadvance⟩
    · exact .refl w _
    · rcases Reaches.of_advanceBy hadvance with rfl | ⟨height, serial, hup, hreaches⟩
      · exact .refl w _
      · exact hreaches.turns hup
  · rcases handle_ok (not_exists.mp hjump) h with ⟨_, rfl | ⟨_, rfl⟩⟩ | ⟨_, u, heffect, hw⟩
    · exact .refl w _
    · exact .keeps rfl rfl id
    · exact heffect.turns hw

theorem EndsRound.leadsTo (h : v.EndsRound statuses w) : v.own.LeadsTo w.own :=
  .inr ⟨h.height_eq.symm, .inl (Counter.lt_of_next h.round_next)⟩

/-- **A validator never comes back to a round**, and a revolt that has begun in it goes on. -/
theorem handle_leadsTo (h : v.handle e = .ok (outcome, w)) : v.own.LeadsTo w.own := by
  cases handle_turns h with
  | keeps hheight hround hrevolting => exact .inr ⟨hheight.symm, .inr ⟨hround.symm, hrevolting⟩⟩
  | ends _ hends => exact hends.leadsTo
  | ascends hup => exact .inl hup

/-- A revolt is on when it has begun, unless it has ended the round by then. -/
theorem revolt_leadsTo (h : v.handle .revolt = .ok (outcome, w)) :
    ({ v.own with revolting := true } : Status).LeadsTo w.own := by
  obtain ⟨_, u, heffect, hw⟩ := onRevolt_ok h
  obtain ⟨hserial⟩ := heffect
  rcases recompute_sameRound_or_ends hw with hsame | ⟨_, hends⟩
  · have hr := hsame.revolting_eq
    have hheight := hsame.height_eq
    have hround := hsame.round_eq
    rw [own_setOwn] at hr hheight hround
    exact .inr ⟨hheight.symm, .inr ⟨hround.symm, fun _ => hr⟩⟩
  · have hleads := hends.leadsTo
    rw [own_setOwn] at hleads
    exact hleads

theorem Turns.height_le (h : v.Turns e w) : v.own.height ≤ w.own.height := by
  cases h with
  | keeps hheight => exact Nat.le_of_eq (congrArg _ hheight.symm)
  | ends _ hends => exact Nat.le_of_eq (congrArg _ hends.height_eq.symm)
  | ascends hup => exact Nat.le_of_lt hup

theorem Turns.round_le (h : v.Turns e w) (hheight : w.own.height = v.own.height) :
    w.own.round.number ≤ v.own.round.number + 1 := by
  cases h with
  | keeps _ hround => exact hround ▸ Nat.le_succ _
  | ends _ hends => exact Nat.le_of_eq (Counter.next_eq_some.mp hends.round_next)
  | ascends hup => exact absurd hup (hheight ▸ Nat.lt_irrefl _)

/-- **No round is skipped**: a validator is in every round between two of the same height. -/
theorem exists_round {history : List Status} {round : Nat} (hrun : v.handleAll events = .ok w)
    (halong : v.ownAlong events = .ok history) (hheight : w.own.height = v.own.height)
    (hfirst : v.own.round.number ≤ round) (hlast : round ≤ w.own.round.number) :
    ∃ s ∈ history, s.height = v.own.height ∧ s.round.number = round := by
  induction events generalizing v history with
  | nil =>
      cases hrun
      cases halong
      exact ⟨w.own, List.mem_singleton_self _, rfl, Nat.le_antisymm hfirst hlast⟩
  | cons e rest ih =>
      obtain ⟨outcome, x, hx, hrest⟩ := handleAll_cons.mp hrun
      obtain ⟨_, _, later, hx', hlater, rfl⟩ := ownAlong_cons.mp halong
      cases hx.symm.trans hx'
      rcases Nat.eq_or_lt_of_le hfirst with heq | hlt
      · exact ⟨v.own, List.mem_cons_self, rfl, heq⟩
      have hturns := handle_turns hx
      -- heights never go down, so all of the run is on one of them
      have hup : x.own.height ≤ w.own.height :=
        handleAll_induction (P := fun y => x.own.height ≤ y.own.height)
          (fun hy hz => Nat.le_trans hy (handle_turns hz).height_le) (Nat.le_refl _) hrest
      have hsame : x.own.height = v.own.height :=
        Counter.ext (Nat.le_antisymm (hheight ▸ hup) hturns.height_le)
      obtain ⟨s, hs, hmoment⟩ := ih hrest hlater (hheight.trans hsame.symm)
        (Nat.le_trans (hturns.round_le hsame) hlt)
      exact ⟨s, List.mem_cons_of_mem _ hs, hmoment.1.trans hsame, hmoment.2⟩

/-- **Revolts go through the whole validator set.** A step of deriving the intent ends the round of a validator
that revolts along with a quorum, or does not touch it. An event ends one round at most, or starts over on a
greater height. So nobody's turn is skipped on one height, and in any rounds that are as many as there are
validators everybody has one turn. -/
theorem revolts_rotate (v : View n) :
    (∀ w, v.step = .ok (some w) →
      v.own.SameRound w.own ∨ (v.own.revolting = true ∧ v.EndsRound v.statuses w)) ∧
    (∀ e outcome w, v.handle e = .ok (outcome, w) → v.Turns e w) ∧
    (∀ events w history, v.handleAll events = .ok w → v.ownAlong events = .ok history →
      w.own.height = v.own.height → v.own.round.number + n.total ≤ w.own.round.number + 1 →
      ∀ i, ∃ s ∈ history, s.height = v.own.height ∧ n.primary v.size_pos s.height s.round = i) ∧
    ∀ (height : Height) (first : Nat) (i : Fin n.total), first + n.total ≤ 2 ^ 64 →
      ∃! round : Round, (first ≤ round.number ∧ round.number < first + n.total) ∧
        n.primary v.size_pos height round = i := by
  refine ⟨fun w hw => (step_changed hw).sameRound_or_ends, fun e outcome w hw => handle_turns hw, ?_,
    fun height first i hlast => ValidatorCount.existsUnique_primary v.size_pos height hlast i⟩
  intro events w history hrun halong hheight hmany i
  have hlast := w.own.round.number_lt
  have hroom : v.own.round.number + n.total ≤ 2 ^ 64 := by omega
  obtain ⟨round, ⟨⟨hfirst, hround⟩, hturn⟩, _⟩ :=
    ValidatorCount.existsUnique_primary v.size_pos v.own.height hroom i
  obtain ⟨s, hs, hsheight, hsround⟩ := exists_round hrun halong hheight hfirst (by omega)
  refine ⟨s, hs, hsheight, ?_⟩
  rw [hsheight, Counter.ext hsround]
  exact hturn

section Plain

/-- Validator 0 revolts against its own round, and validator 1 as well. With validator 2 they are enough, and
it is the turn of validator 1. -/
theorem revolts_rotate_deposed :
    ∃ v w, (openingView 3).handleAll [.revolt, deposes 1] = .ok v ∧
      v.handle (deposes 2) = .ok (.accepted, w) ∧ v.own.revolting = true ∧ v.primary = 0 ∧
      Abandoned v.me v.own w.statuses ∧ w.own.round = .ofNatClamped 1 ∧ w.primary.val = 1 := by
  obtain ⟨v, outcome, w, hrun, hlast, rfl, hr, hprimary, hvround, hwround, hheight⟩ :=
    exists_handled (openingView 3) [.revolt, deposes 1] (deposes 2)
      (P := fun v outcome w => outcome = .accepted ∧ v.own.revolting = true ∧ v.primary = 0 ∧
        v.own.round = .zero ∧ w.own.round = .ofNatClamped 1 ∧ w.own.height = v.own.height)
      (by decide +kernel)
  obtain ⟨_, hevents, _⟩ := revolts_rotate v
  cases hevents _ _ _ hlast with
  | keeps _ hround =>
      rw [hvround, hwround] at hround
      exact absurd hround (by decide)
  | ends _ hends =>
      refine ⟨v, w, hrun, hlast, hr, hprimary, hends.abandoned, hwround, ?_⟩
      rw [hends.primary_eq, hprimary]
      rfl
  | ascends hup => exact absurd hup (hheight ▸ Nat.lt_irrefl _)

end Plain

end View

end QuorumChain
