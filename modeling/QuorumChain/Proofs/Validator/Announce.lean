import QuorumChain.Proofs.Plain
import QuorumChain.Proofs.View.Reports

/-! What the others are told of a validator's status. Whether to tell it anew is decided by its serial
alone. That is enough since every change of the own status is counted, whatever the engine does. -/

namespace QuorumChain

variable {n : ValidatorCount} {σ β ω ε : Type}

namespace Outbound

/-- The status that is broadcast with a message. -/
def told? : Outbound → Option Status
  | .all (.status s) => some s
  | _ => none

end Outbound

/-- The statuses that are broadcast, in order. -/
def told (out : List Outbound) : List Status := out.filterMap Outbound.told?

@[simp] theorem told_append (out out' : List Outbound) : told (out ++ out') = told out ++ told out' :=
  List.filterMap_append

/-- A message to a single validator is no broadcast. -/
theorem told_eq_nil {out : List Outbound} (h : ∀ o ∈ out, ∃ i m, o = .one i m) : told out = [] := by
  refine List.filterMap_eq_nil_iff.mpr fun o ho => ?_
  obtain ⟨i, m, rfl⟩ := h o ho
  rfl

/-- Something that happens to a validator or, from outside, to its engine. -/
inductive Occurrence (σ : Type) where
  | event (e : ValidatorEvent)
  | engine (f : σ → σ)

namespace Validator

variable {v w : Validator n σ β ω ε} {e : ValidatorEvent} {out sent : List Outbound}

theorem told_request {intent : Intent} {now : Instant} {choice : Nat} :
    told (v.request intent now choice).1 = [] := by
  refine told_eq_nil fun o ho => ?_
  unfold request at ho
  dsimp only at ho
  split at ho
  · obtain ⟨⟨i, m⟩, _, rfl⟩ := List.mem_map.mp ho
    exact ⟨i, m, rfl⟩
  · cases ho

/-- What a validator remembers of its broadcasts is true: the last one was of a status that it has been
through, with the serial that it remembers. -/
def Recalls (v : Validator n σ β ω ε) (sent : List Outbound) : Prop :=
  ∀ serial, v.announcer.lastSerial = some serial →
    ∃ s, (told sent).getLast? = some s ∧ s.serial = serial ∧ s.Precedes v.own

/-- Telling the own status where its serial is another than that of the last broadcast leaves the last
broadcast up to date. -/
theorem Recalls.announce (h : v.Recalls sent) (now : Instant) :
    (told (sent ++ (v.announce now).1)).getLast? = some v.own ∧
      (v.announce now).2.announcer.lastSerial = some v.own.serial := by
  unfold Validator.announce StatusAnnouncer.update
  dsimp only
  split
  · simp [told, Outbound.told?]
  next hsame =>
    rw [not_or, ne_eq, Decidable.not_not] at hsame
    obtain ⟨s, hlast, hserial, hprecedes⟩ := h _ hsame.1
    refine ⟨?_, hsame.1⟩
    -- A status that precedes the own one without being it has a smaller serial.
    rcases hprecedes with rfl | ⟨hlt, _⟩
    · simpa using hlast
    · rw [hserial] at hlt
      exact absurd hlt (Nat.lt_irrefl _)

variable [BlockEngine σ β ω ε]

theorem recalls_start {config : Config} {roster : Roster} {me : PeerIndex} {engine : σ}
    {policy : BuildPolicy} {clock : WallClock} {now : Instant} {v : Validator roster.size σ β ω ε}
    (hstart : Validator.start config roster me engine policy clock now = .ok (.ok v)) :
    v.Recalls [] := by
  obtain ⟨next, serial, view, _, _, _, rfl⟩ := start_ok hstart
  intro told htold
  cases htold

/-- What an event ends with leaves what is remembered true, and after a tick the last broadcast is the own
status. -/
theorem Recalls.conclude (h : v.Recalls sent) (e : ValidatorEvent) :
    (v.conclude e).2.Recalls (sent ++ (v.conclude e).1) ∧
      ((∃ now clock choice, e = .tick now clock choice) →
        (told (sent ++ (v.conclude e).1)).getLast? = some (v.conclude e).2.own) := by
  by_cases he : ∃ now clock choice, e = .tick now clock choice
  · obtain ⟨now, clock, choice, rfl⟩ := he
    obtain ⟨hlast, hserial⟩ := h.announce now
    refine ⟨fun serial hs => ⟨_, hlast, ?_, .refl _⟩, fun _ => hlast⟩
    exact Option.some.inj (hserial.symm.trans hs)
  · refine ⟨?_, fun htick => absurd htick he⟩
    cases e with
    | tick now clock choice => exact absurd ⟨now, clock, choice, rfl⟩ he
    | _ =>
        intro serial hserial
        simp only [Validator.conclude, List.append_nil]
        exact h serial hserial

variable [CryptoSuite]

/-- Nothing is broadcast at a part of an event, and the announcer stays. -/
theorem Part.untold (h : Part e v out w) : told out = [] ∧ w.announcer = v.announcer := by
  cases h with
  | ask _ _ => exact ⟨told_request, rfl⟩
  | _ => exact ⟨rfl, rfl⟩

/-- **Every part of an event that changes the own status counts that.** -/
theorem Part.precedes (h : Part e v out w) : v.own.Precedes w.own :=
  h.relates Status.Precedes.refl View.handle_precedes

theorem Recalls.parts (h : v.Recalls sent) (hparts : Parts e v out w) : w.Recalls (sent ++ out) := by
  induction hparts with
  | none =>
      rw [List.append_nil]
      exact h
  | snoc _ hpart ih =>
      obtain ⟨hout, hannouncer⟩ := hpart.untold
      intro serial hserial
      rw [hannouncer] at hserial
      obtain ⟨s, hlast, hs, hprecedes⟩ := ih serial hserial
      refine ⟨s, ?_, hs, hprecedes.trans hpart.precedes⟩
      rw [← List.append_assoc, told_append, hout, List.append_nil]
      exact hlast

/-- The messages that a validator sends over a run, in order, and the validator after it. -/
def live (v : Validator n σ β ω ε) : List (Occurrence σ) → List Outbound × Validator n σ β ω ε
  | [] => ([], v)
  | .event e :: run =>
    let (out, w) := v.handle e
    let (later, w') := w.live run
    (out ++ later, w')
  | .engine f :: run => (v.mapEngine f).live run

theorem live_append (run run' : List (Occurrence σ)) :
    v.live (run ++ run') =
      ((v.live run).1 ++ ((v.live run).2.live run').1, ((v.live run).2.live run').2) := by
  induction run generalizing v with
  | nil => simp [live]
  | cons x run ih =>
      cases x with
      | event e => simp [live, ih]
      | engine f => simp [live, ih]

theorem Recalls.handle (h : v.Recalls sent) (e : ValidatorEvent) :
    (v.handle e).2.Recalls (sent ++ (v.handle e).1) := by
  cases hrunning : v.running with
  | false =>
      rw [handle_stopped e hrunning, List.append_nil]
      exact h
  | true =>
      rcases handle_parts e hrunning with ⟨out, u, hparts, hhandle⟩ | hhandle
      · rw [hhandle, ← List.append_assoc]
        exact ((h.parts hparts).conclude e).1
      · rw [hhandle, List.append_nil]
        exact h

/-- What a validator remembers of its broadcasts stays true over a run. -/
theorem Recalls.live (h : v.Recalls sent) (run : List (Occurrence σ)) :
    (v.live run).2.Recalls (sent ++ (v.live run).1) := by
  induction run generalizing v sent with
  | nil =>
      rw [Validator.live, List.append_nil]
      exact h
  | cons x run ih =>
      cases x with
      | event e =>
          have hrest := ih (h.handle e)
          rw [List.append_assoc] at hrest
          exact hrest
      | engine f => exact ih (v := v.mapEngine f) h

/-- **Nobody is left with an outdated broadcast.** Whatever a validator goes through, and whatever engine
it runs on, the last status that it has broadcast when a tick is over is its own one, in every field. -/
theorem last_broadcast_current {config : Config} {roster : Roster} {me : PeerIndex} {engine : σ}
    {policy : BuildPolicy} {clock : WallClock} {now : Instant} {v : Validator roster.size σ β ω ε}
    (hstart : Validator.start config roster me engine policy clock now = .ok (.ok v))
    (run : List (Occurrence σ)) {now' : Instant} {clock' : WallClock} {choice : Nat}
    (hrunning : (v.live (run ++ [.event (.tick now' clock' choice)])).2.running = true) :
    (told (v.live (run ++ [.event (.tick now' clock' choice)])).1).getLast? =
      some (v.live (run ++ [.event (.tick now' clock' choice)])).2.own := by
  have hrecalls := (recalls_start hstart).live run
  rw [List.nil_append] at hrecalls
  rw [live_append] at hrunning ⊢
  simp only [live, List.append_nil] at hrunning ⊢
  -- A validator that still runs was running before, and did not halt at the tick.
  cases hbefore : (v.live run).2.running with
  | false =>
      rw [handle_stopped _ hbefore] at hrunning
      exact nomatch hbefore.symm.trans hrunning
  | true =>
      rcases handle_parts (.tick now' clock' choice) hbefore with ⟨out, u, hparts, hhandle⟩ | hhandle
      · rw [hhandle, ← List.append_assoc]
        exact ((hrecalls.parts hparts).conclude _).2 ⟨now', clock', choice, rfl⟩
      · rw [hhandle] at hrunning
        cases hrunning

end Validator

/-- What happens to a validator on a ledger happens to it or to the ledger. -/
def Happening.occurrence : Happening → Occurrence Ledger
  | .event e => .event e
  | .submitted tx => .engine (.submit tx)
  | .closed => .engine .close

section Quartet

local instance announcingSuite : CryptoSuite := plainSuite

/-- Validator 3 tells its first status, gets a block, and wants its round to end. -/
def announcedRun : List (Occurrence Ledger) :=
  .event (.tick .origin ⟨0⟩ 0) :: (firstHeld ++ [Happening.event .revolt]).map Happening.occurrence

/-- At once after the first tick there is another one, at which the block and the revolt are told. -/
theorem last_broadcast_current_revolt :
    ∃ v s, plainStart (n := quartet) 3 = .ok (.ok v) ∧
      (v.live (announcedRun ++ [.event (.tick .origin ⟨0⟩ 0)])).2.running = true ∧
      (v.live (announcedRun ++ [.event (.tick .origin ⟨0⟩ 0)])).2.own = s ∧
      s.block = some (plainBlock 1).id ∧ s.revolting = true ∧
      (told (v.live (announcedRun ++ [.event (.tick .origin ⟨0⟩ 0)])).1).getLast? = some s := by
  obtain ⟨v, hstart, hrunning, hblock, hrevolting⟩ := exists_started (x := plainStart (n := quartet) 3)
    (P := fun v =>
      (v.live (announcedRun ++ [.event (.tick .origin ⟨0⟩ 0)])).2.running = true ∧
      (v.live (announcedRun ++ [.event (.tick .origin ⟨0⟩ 0)])).2.own.block = some (plainBlock 1).id ∧
      (v.live (announcedRun ++ [.event (.tick .origin ⟨0⟩ 0)])).2.own.revolting = true)
    (by decide +kernel)
  exact ⟨v, _, hstart, hrunning, rfl, hblock, hrevolting,
    Validator.last_broadcast_current hstart announcedRun hrunning⟩

end Quartet

end QuorumChain
