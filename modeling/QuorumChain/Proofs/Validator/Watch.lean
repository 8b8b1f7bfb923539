import QuorumChain.Proofs.Validator.Announce
import QuorumChain.Proofs.View.Rounds

/-! When the revolt timer of a validator is due. It sees the own status at ticks only, while rounds end and
revolts begin in between. But a validator never comes back to a round, and a revolt lasts as long as the round;
so what the timer sees at two ticks of one round was the case all the time. -/

namespace QuorumChain

/-- A moment of a run: the own status, and the time and the answer if the revolt timer is asked. -/
structure Moment where
  own : Status
  asked : Option (Instant × Bool)

/-- The revolt timer is due. -/
def Moment.IsDue (m : Moment) : Prop := ∃ now, m.asked = some (now, true)

variable {base : Duration} {past : List Moment} {own own' : Status} {timer : RevoltTimer} {now : Instant}

/-- After some moments it is high time for a revolt. The timer has seen the place in the past, for the first
time longer ago than the timeout of the round; the place was the same ever since, and there was no revolt. -/
structure Overdue (base : Duration) (past : List Moment) (own : Status) (now : Instant) : Prop where
  calm : own.revolting = false
  waited : ∃ earlier first armed between, past = earlier ++ ⟨first, some (armed, false)⟩ :: between ∧
    (∀ m ∈ earlier, m.asked ≠ none → m.own.place ≠ own.place) ∧
    armed + RevoltTimer.timeoutFor base own.round < now ∧
    ∀ m ∈ ⟨first, some (armed, false)⟩ :: between, m.own.place = own.place ∧ m.own.revolting = false

/-- The timer is due only if it is high time, and not for a place for which it was due before. -/
def Punctual (base : Duration) (moments : List Moment) : Prop :=
  ∀ before own now after, moments = before ++ ⟨own, some (now, true)⟩ :: after →
    Overdue base before own now ∧ ∀ m ∈ before, m.IsDue → m.own.place ≠ own.place

theorem Punctual.snoc {m : Moment} (h : Punctual base past)
    (hm : ∀ now, m.asked = some (now, true) →
      Overdue base past m.own now ∧ ∀ m' ∈ past, m'.IsDue → m'.own.place ≠ m.own.place) :
    Punctual base (past ++ [m]) := by
  intro before own now after heq
  rcases List.eq_nil_or_concat after with rfl | ⟨after, last, rfl⟩
  · obtain ⟨rfl, hlast⟩ := List.append_inj' heq rfl
    obtain rfl := List.singleton_inj.mp hlast
    exact hm now rfl
  · rw [List.concat_eq_append, ← List.cons_append, ← List.append_assoc] at heq
    exact h before own now after (List.append_inj' heq rfl).1

/-- The timer is set to the place that it saw last, and to the moment at which it saw that first. -/
def RevoltTimer.Armed (timer : RevoltTimer) (base : Duration) (past : List Moment) : Prop :=
  ∃ earlier first armed between, past = earlier ++ ⟨first, some (armed, false)⟩ :: between ∧
    timer = .start base first armed ∧ (∀ m ∈ earlier, m.asked ≠ none → m.own.place ≠ first.place) ∧
    ∀ m ∈ between, m.asked ≠ none → m.own.place = first.place

theorem RevoltTimer.Armed.snoc {m : Moment} (h : timer.Armed base past)
    (hm : m.asked ≠ none → m.own.place = (timer.height, timer.round)) : timer.Armed base (past ++ [m]) := by
  obtain ⟨earlier, first, armed, between, rfl, rfl, hearlier, hbetween⟩ := h
  refine ⟨earlier, first, armed, between ++ [m], by simp, rfl, hearlier, fun m' hm' => ?_⟩
  rcases List.mem_append.mp hm' with hm' | hm'
  · exact hbetween m' hm'
  · cases List.mem_singleton.mp hm'
    exact hm

/-- A place that the timer does not know sets it anew, and else it tells whether it is due. -/
theorem RevoltTimer.update_cases (timer : RevoltTimer) (own : Status) (now : Instant) :
    (own.place ≠ (timer.height, timer.round) ∧ timer.update own now = (false, start timer.baseTimeout own now)) ∨
      (own.place = (timer.height, timer.round) ∧
        timer.update own now = (!own.revolting && timer.deadline < now, timer)) := by
  unfold update
  simp only [Status.place, ne_eq, Prod.mk.injEq]
  split
  next h => exact .inl ⟨fun hplace => h.elim (· hplace.1) (· hplace.2), rfl⟩
  next h =>
    rw [not_or, Decidable.not_not, Decidable.not_not] at h
    exact .inr ⟨h, rfl⟩

/-- What a timer knows of the past of a validator: every moment leads to the present one, and so does the
revolt that the timer called for. -/
structure Watches (base : Duration) (past : List Moment) (own : Status) (timer : RevoltTimer) : Prop where
  ordered : past.Pairwise fun m m' => m.own.LeadsTo m'.own
  leads : ∀ m ∈ past, m.own.LeadsTo own
  armed : timer.Armed base past
  revolts : ∀ m ∈ past, m.IsDue → ({ m.own with revolting := true } : Status).LeadsTo own

namespace Watches

theorem start (base : Duration) (own : Status) (now : Instant) :
    Watches base [⟨own, some (now, false)⟩] own (.start base own now) where
  ordered := List.pairwise_singleton _ _
  leads m hm := by
    cases List.mem_singleton.mp hm
    exact .refl own
  armed := ⟨[], own, now, [], rfl, rfl, nofun, nofun⟩
  revolts m hm hdue := by
    cases List.mem_singleton.mp hm
    obtain ⟨now', h⟩ := hdue
    cases h

/-- The present changes. -/
theorem pass (h : Watches base past own timer) (hleads : own.LeadsTo own') : Watches base past own' timer where
  ordered := h.ordered
  leads m hm := (h.leads m hm).trans hleads
  armed := h.armed
  revolts m hm hdue := (h.revolts m hm hdue).trans hleads

/-- The present becomes past. -/
theorem snoc {timer' : RevoltTimer} {asked : Option (Instant × Bool)} (h : Watches base past own timer)
    (harmed : timer'.Armed base (past ++ [⟨own, asked⟩]))
    (hleads : own.LeadsTo own')
    (hdue : (∃ now, asked = some (now, true)) → ({ own with revolting := true } : Status).LeadsTo own') :
    Watches base (past ++ [⟨own, asked⟩]) own' timer' where
  ordered := List.pairwise_append.mpr ⟨h.ordered, List.pairwise_singleton _ _, fun m hm m' hm' => by
    cases List.mem_singleton.mp hm'
    exact h.leads m hm⟩
  leads m hm := by
    rcases List.mem_append.mp hm with hm | hm
    · exact (h.leads m hm).trans hleads
    · cases List.mem_singleton.mp hm
      exact hleads
  armed := harmed
  revolts m hm hm' := by
    rcases List.mem_append.mp hm with hm | hm
    · exact (h.revolts m hm hm').trans hleads
    · cases List.mem_singleton.mp hm
      exact hdue hm'

theorem look (h : Watches base past own timer) : Watches base (past ++ [⟨own, none⟩]) own timer :=
  h.snoc (h.armed.snoc fun hasked => absurd rfl hasked) (.refl own) nofun

/-- A timer that is set anew sees a place for the first time. -/
theorem rearm (h : Watches base past own timer) (hplace : own.place ≠ (timer.height, timer.round)) :
    (RevoltTimer.start timer.baseTimeout own now).Armed base (past ++ [⟨own, some (now, false)⟩]) := by
  have hleads := h.leads
  have hordered := h.ordered
  obtain ⟨earlier, first, armed, between, rfl, rfl, hearlier, hbetween⟩ := h.armed
  refine ⟨_, own, now, [], rfl, rfl, fun m hm hasked heq => ?_, nofun⟩
  rcases List.mem_append.mp hm with hm | hm
  · -- the place of the timer is between that of `m` and the own one
    have hfirst := (List.pairwise_append.mp hordered).2.2 m hm _ List.mem_cons_self
    have hnow := hleads _ (List.mem_append_right _ List.mem_cons_self)
    exact hearlier m hm hasked (hfirst.place_eq hnow heq.symm).symm
  · rcases List.mem_cons.mp hm with rfl | hm
    · exact hplace heq.symm
    · exact hplace (heq.symm.trans (hbetween m hm hasked))

/-- **A timer that is due has been set for long enough.** -/
theorem overdue (h : Watches base past own timer) (hplace : own.place = (timer.height, timer.round))
    (hcalm : own.revolting = false) (hlate : timer.deadline < now) :
    Overdue base past own now ∧ ∀ m ∈ past, m.IsDue → m.own.place ≠ own.place := by
  have hleads := h.leads
  have hordered := h.ordered
  refine ⟨⟨hcalm, ?_⟩, fun m hm hdue heq => ?_⟩
  · obtain ⟨earlier, first, armed, between, rfl, rfl, hearlier, _⟩ := h.armed
    have hfirst : first.place = own.place := hplace.symm
    have hround : first.round = own.round := congrArg Prod.snd hfirst
    refine ⟨earlier, first, armed, between, rfl, fun m hm hasked => hfirst ▸ hearlier m hm hasked,
      hround ▸ hlate, fun m hm => ?_⟩
    have hnow := hleads m (List.mem_append_right _ hm)
    have hsince : first.LeadsTo m.own := by
      rcases List.mem_cons.mp hm with rfl | hm
      · exact .refl first
      · exact (List.pairwise_cons.mp (List.pairwise_append.mp hordered).2.1).1 m hm
    have hsame := (hsince.place_eq hnow hfirst.symm).trans hfirst
    refine ⟨hsame, ?_⟩
    by_contra hr
    rw [Bool.not_eq_false] at hr
    exact nomatch hcalm.symm.trans (hnow.revolting hsame.symm hr)
  · exact nomatch hcalm.symm.trans ((h.revolts m hm hdue).revolting heq.symm rfl)

/-- The timer is asked, and there is a revolt if it is due. -/
theorem ask (h : Watches base past own timer) (hpunctual : Punctual base past) (now : Instant) :
    Punctual base (past ++ [⟨own, some (now, (timer.update own now).1)⟩]) ∧
      ∀ own', (if (timer.update own now).1 then { own with revolting := true } else own).LeadsTo own' →
        Watches base (past ++ [⟨own, some (now, (timer.update own now).1)⟩]) own'
          (timer.update own now).2 := by
  rcases timer.update_cases own now with ⟨hplace, hanswer⟩ | ⟨hplace, hanswer⟩
  -- the timer is set anew
  · rw [hanswer]
    refine ⟨hpunctual.snoc nofun, fun own' hleads => ?_⟩
    exact h.snoc (h.rearm hplace) hleads nofun
  -- it stays as it is, and may be due
  · have harmed : ∀ asked, timer.Armed base (past ++ [⟨own, asked⟩]) := fun asked => h.armed.snoc fun _ => hplace
    rw [hanswer]
    cases hdue : !own.revolting && decide (timer.deadline < now) with
    | false =>
        refine ⟨hpunctual.snoc nofun, fun own' hleads => ?_⟩
        exact h.snoc (harmed _) hleads nofun
    | true =>
        rw [Bool.and_eq_true, Bool.not_eq_true', decide_eq_true_eq] at hdue
        refine ⟨hpunctual.snoc fun now' heq => ?_, fun own' hleads => ?_⟩
        · cases heq
          exact h.overdue hplace hdue.1 hdue.2
        · have hrises : own.LeadsTo { own with revolting := true } := .inr ⟨rfl, .inr ⟨rfl, fun _ => rfl⟩⟩
          exact h.snoc (harmed _) (hrises.trans hleads) fun _ => hleads

end Watches

namespace Validator

variable {n : ValidatorCount} {σ β ω ε : Type} {u v w : Validator n σ β ω ε} {e : ValidatorEvent}
  {clock : WallClock} {choice : Nat} {out : List Outbound}

theorem revoltIfDue_leadsTo (h : v.revoltIfDue now = .ok w) :
    (if (v.revoltTimer.update v.own now).1 then { v.own with revolting := true } else v.own).LeadsTo w.own ∧
      w.revoltTimer = (v.revoltTimer.update v.own now).2 := by
  unfold revoltIfDue at h
  dsimp only at h
  split at h
  next hdue =>
    obtain ⟨⟨outcome, x⟩, hx, h⟩ := bind_eq_ok.mp h
    obtain ⟨view, hview, rfl⟩ := Executor.handleView_eq_ok.mp hx
    cases h
    rw [if_pos hdue]
    exact ⟨View.revolt_leadsTo hview, rfl⟩
  next hdue =>
    cases h
    rw [if_neg hdue]
    exact ⟨.refl _, rfl⟩

variable [BlockEngine σ β ω ε] [CryptoSuite]

/-- What a tick does before the revolt timer is asked. -/
def untilRevolt (now : Instant) (clock : WallClock) (choice : Nat) (v : Validator n σ β ω ε) :
    Except Fault (List Outbound × Validator n σ β ω ε) := do
  let v ← v.fastForward
  let (intent, v) ← v.intentNow clock
  return v.request intent now choice

theorem tick_eq (now : Instant) (clock : WallClock) (choice : Nat) (v : Validator n σ β ω ε) :
    v.tick now clock choice = (do
      let (requests, u) ← v.untilRevolt now clock choice
      let w ← u.revoltIfDue now
      return (requests ++ (w.announce now).1, (w.announce now).2)) := by
  simp only [tick, untilRevolt, bind_assoc, pure_bind]

/-- The moment at which the revolt timer is asked, at an event of a validator that runs. -/
def asksAt (v : Validator n σ β ω ε) : ValidatorEvent → List Moment
  | .tick now clock choice =>
    match v.untilRevolt now clock choice with
    | .ok (_, u) => [⟨u.own, some (now, (u.revoltTimer.update u.own now).1)⟩]
    | .error _ => []
  | _ => []

/-- The moments of an event: when the revolt timer is asked, even if the revolt is the end of the validator,
and when the event is over. -/
def moments (v : Validator n σ β ω ε) (e : ValidatorEvent) : List Moment :=
  if v.running then
    v.asksAt e ++ if (v.handle e).2.running then [⟨(v.handle e).2.own, none⟩] else []
  else []

/-- The moments of a run. -/
def momentsOf (v : Validator n σ β ω ε) : List (Occurrence σ) → List Moment
  | [] => []
  | .event e :: run => v.moments e ++ (v.handle e).2.momentsOf run
  | .engine f :: run => (v.mapEngine f).momentsOf run

/-- The own status after a part is a later one, and the revolt timer is asked at ticks only. -/
theorem Part.leadsTo (h : Part e v out w) : v.own.LeadsTo w.own :=
  h.relates Status.LeadsTo.refl View.handle_leadsTo

theorem Part.unasked (h : Part e v out w) (he : ∀ now clock choice, e ≠ .tick now clock choice) :
    w.revoltTimer = v.revoltTimer := by
  cases h with
  | watch htick _ => exact absurd htick (he _ _ _)
  | rise htick _ _ => exact absurd htick (he _ _ _)
  | _ => rfl

theorem Parts.quiet (h : Parts e v out w) (he : ∀ now clock choice, e ≠ .tick now clock choice) :
    v.own.LeadsTo w.own ∧ w.revoltTimer = v.revoltTimer := by
  induction h with
  | none => exact ⟨.refl _, rfl⟩
  | snoc _ hpart ih => exact ⟨ih.1.trans hpart.leadsTo, (hpart.unasked he).trans ih.2⟩

theorem untilRevolt_quiet (h : v.untilRevolt now clock choice = .ok (out, u)) :
    v.own.LeadsTo u.own ∧ u.revoltTimer = v.revoltTimer := by
  obtain ⟨x, hx, h⟩ := bind_eq_ok.mp h
  obtain ⟨⟨intent, y⟩, hy, h⟩ := bind_eq_ok.mp h
  cases h
  -- no part of it belongs to a tick alone
  have hparts : Parts .revolt v [] y := (fastForward_parts hx).trans (intentNow_parts hy).1
  exact hparts.quiet nofun

/-- What the timer knows of the past as long as the validator runs. -/
def Watched (base : Duration) (past : List Moment) (v : Validator n σ β ω ε) : Prop :=
  Punctual base past ∧ (v.running = true → Watches base past v.own v.revoltTimer)

/-- A tick breaks down before the revolt timer is asked, or with the revolt that it calls for, or it goes on to
its end. -/
theorem tick_cases (hrunning : v.running = true) (now : Instant) (clock : WallClock) (choice : Nat) :
    (v.asksAt (.tick now clock choice) = [] ∧ (v.handle (.tick now clock choice)).2.running = false) ∨
      ∃ u : Validator n σ β ω ε, v.own.LeadsTo u.own ∧ u.revoltTimer = v.revoltTimer ∧
        v.asksAt (.tick now clock choice) = [⟨u.own, some (now, (u.revoltTimer.update u.own now).1)⟩] ∧
        ((v.handle (.tick now clock choice)).2.running = false ∨
          ∃ w : Validator n σ β ω ε, u.revoltIfDue now = .ok w ∧
            (v.handle (.tick now clock choice)).2 = (w.announce now).2) := by
  have hhalts : ∀ fault, v.tick now clock choice = .error fault →
      (v.handle (.tick now clock choice)).2.running = false := by
    intro fault htick
    simp only [handle, hrunning, if_true, react, htick]
    rfl
  cases huntil : v.untilRevolt now clock choice with
  | error fault =>
      refine .inl ⟨by simp only [asksAt, huntil], hhalts fault ?_⟩
      rw [tick_eq, huntil]
      rfl
  | ok r =>
      obtain ⟨requests, u⟩ := r
      obtain ⟨hleads, htimer⟩ := untilRevolt_quiet huntil
      refine .inr ⟨u, hleads, htimer, by simp only [asksAt, huntil], ?_⟩
      cases hrevolt : u.revoltIfDue now with
      | error fault =>
          refine .inl (hhalts fault ?_)
          rw [tick_eq, huntil]
          exact bind_eq_error.mpr (.inr ⟨_, rfl, bind_eq_error.mpr (.inl hrevolt)⟩)
      | ok w =>
          have htick : v.tick now clock choice =
              .ok (requests ++ (w.announce now).1, (w.announce now).2) := by
            rw [tick_eq, huntil]
            exact bind_eq_ok.mpr ⟨_, rfl, bind_eq_ok.mpr ⟨w, hrevolt, rfl⟩⟩
          refine .inr ⟨w, rfl, ?_⟩
          simp only [handle, hrunning, if_true, react, htick]

theorem Watched.tick (h : v.Watched base past) (hrunning : v.running = true) (now : Instant)
    (clock : WallClock) (choice : Nat) :
    (v.handle (.tick now clock choice)).2.Watched base (past ++ v.asksAt (.tick now clock choice)) := by
  rcases tick_cases hrunning now clock choice with ⟨hasks, hhalts⟩ | ⟨u, hleads, htimer, hasks, hend⟩
  · rw [hasks, List.append_nil]
    exact ⟨h.1, fun hr => nomatch hhalts.symm.trans hr⟩
  · have hwatches : Watches base past u.own u.revoltTimer := htimer ▸ (h.2 hrunning).pass hleads
    obtain ⟨hpunctual, hwatched⟩ := hwatches.ask h.1 now
    rw [hasks]
    refine ⟨hpunctual, fun hr => ?_⟩
    rcases hend with hhalts | ⟨w, hrevolt, hhandle⟩
    · exact nomatch hhalts.symm.trans hr
    · obtain ⟨hrises, hset⟩ := revoltIfDue_leadsTo hrevolt
      have hend := hwatched w.own hrises
      rw [← hset] at hend
      rw [hhandle]
      exact hend

theorem Watched.other (h : v.Watched base past) (hrunning : v.running = true)
    (he : ∀ now clock choice, e ≠ .tick now clock choice) : (v.handle e).2.Watched base past := by
  refine ⟨h.1, fun hr => ?_⟩
  rcases handle_parts e hrunning with ⟨sent, u, hparts, hhandle⟩ | hhandle
  · obtain ⟨hleads, htimer⟩ := hparts.quiet he
    have hwatches : Watches base past u.own u.revoltTimer := htimer ▸ (h.2 hrunning).pass hleads
    rw [hhandle]
    cases e with
    | tick now clock choice => exact absurd rfl (he now clock choice)
    | _ => exact hwatches
  · rw [hhandle] at hr
    cases hr

theorem Watched.handle (h : v.Watched base past) (e : ValidatorEvent) :
    (v.handle e).2.Watched base (past ++ v.moments e) := by
  cases hrunning : v.running with
  | false =>
      rw [handle_stopped e hrunning, moments, hrunning]
      simpa using h
  | true =>
      have hasked : (v.handle e).2.Watched base (past ++ v.asksAt e) := by
        cases e with
        | tick now clock choice => exact h.tick hrunning now clock choice
        | _ => exact (List.append_nil past).symm ▸ h.other hrunning nofun
      rw [moments, if_pos hrunning, ← List.append_assoc]
      split
      next hr =>
        exact ⟨hasked.1.snoc nofun, fun _ => (hasked.2 hr).look⟩
      next hr =>
        rw [List.append_nil]
        exact hasked

theorem Watched.momentsOf (h : v.Watched base past) (run : List (Occurrence σ)) :
    Punctual base (past ++ v.momentsOf run) := by
  induction run generalizing v past with
  | nil =>
      rw [Validator.momentsOf, List.append_nil]
      exact h.1
  | cons x run ih =>
      cases x with
      | event e =>
          rw [Validator.momentsOf, ← List.append_assoc]
          exact ih (h.handle e)
      | engine f => exact ih (v := v.mapEngine f) h

/-- **A round is timed out once at most.** The revolt timer is due only at a tick later than the timeout after
the first time at which it saw the own height and round, which were the own ones ever since, without a revolt;
and it is due at no other tick of that height and round. That the clock does not run backward is not needed. -/
theorem timed_revolt_once {config : Config} {roster : Roster} {me : PeerIndex} {engine : σ}
    {policy : BuildPolicy} {clock : WallClock} {now : Instant} {v : Validator roster.size σ β ω ε}
    (hstart : Validator.start config roster me engine policy clock now = .ok (.ok v))
    (run : List (Occurrence σ)) {before after : List Moment} {own : Status} {now' : Instant}
    (hmoment : ⟨v.own, some (now, false)⟩ :: v.momentsOf run = before ++ ⟨own, some (now', true)⟩ :: after) :
    Overdue config.revoltTimeout before own now' ∧
      ∀ m ∈ before ++ after, m.IsDue → m.own.place ≠ own.place := by
  have hwatched : v.Watched config.revoltTimeout [⟨v.own, some (now, false)⟩] := by
    obtain ⟨next, serial, view, _, _, _, rfl⟩ := start_ok hstart
    have hnone : Punctual config.revoltTimeout [] := fun _ _ _ _ h => absurd h (by simp)
    exact ⟨hnone.snoc nofun, fun _ => .start _ _ _⟩
  have hpunctual := hwatched.momentsOf run
  rw [List.singleton_append] at hpunctual
  obtain ⟨hoverdue, hbefore⟩ := hpunctual _ _ _ _ hmoment
  refine ⟨hoverdue, fun m hm hdue => ?_⟩
  rcases List.mem_append.mp hm with hm | hm
  · exact hbefore m hm hdue
  -- a later moment is due after this one
  · obtain ⟨between, later, rfl⟩ := List.append_of_mem hm
    obtain ⟨own', asked⟩ := m
    obtain ⟨t, rfl⟩ := hdue
    refine Ne.symm ((hpunctual (before ++ ⟨own, some (now', true)⟩ :: between) own' t later ?_).2
      ⟨own, some (now', true)⟩ (List.mem_append_right _ List.mem_cons_self) ⟨now', rfl⟩)
    rw [hmoment, List.append_assoc, List.cons_append]

end Validator

section Quartet

local instance watchingSuite : CryptoSuite := plainSuite

/-- Validator 3 hears of nobody: ten seconds and a nanosecond after its start its first round is timed out. -/
def idleRun : List (Occurrence Ledger) :=
  [.event (.tick ⟨1⟩ ⟨0⟩ 0), .event (.tick ⟨10000000001⟩ ⟨0⟩ 0), .event (.tick ⟨20000000001⟩ ⟨0⟩ 0)]

theorem timed_revolt_once_idle :
    ∃ v own before after, plainStart (n := quartet) 3 = .ok (.ok v) ∧
      ⟨v.own, some (.origin, false)⟩ :: v.momentsOf idleRun =
        before ++ ⟨own, some (⟨10000000001⟩, true)⟩ :: after ∧
      Overdue ({} : Config).revoltTimeout before own ⟨10000000001⟩ ∧
      ∀ m ∈ before ++ after, m.IsDue → m.own.place ≠ own.place := by
  obtain ⟨v, hstart, m, hm, hdue⟩ := exists_started (x := plainStart (n := quartet) 3)
    (P := fun v => ∃ m ∈ v.momentsOf idleRun, m.asked = some (⟨10000000001⟩, true)) (by decide +kernel)
  obtain ⟨before, after, hsplit⟩ := List.append_of_mem hm
  obtain ⟨own, asked⟩ := m
  obtain rfl : asked = _ := hdue
  have hmoment : ⟨v.own, some (.origin, false)⟩ :: v.momentsOf idleRun =
      (⟨v.own, some (.origin, false)⟩ :: before) ++ ⟨own, some (⟨10000000001⟩, true)⟩ :: after := by
    rw [hsplit, List.cons_append]
  obtain ⟨hoverdue, honce⟩ := Validator.timed_revolt_once hstart idleRun hmoment
  exact ⟨v, own, _, after, hstart, hmoment, hoverdue, honce⟩

end Quartet

end QuorumChain
