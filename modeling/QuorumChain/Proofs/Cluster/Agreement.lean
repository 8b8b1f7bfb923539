import QuorumChain.Proofs.Cluster.Safety
import QuorumChain.Proofs.Plain

/-! Agreement. A stored block has a quorum that is bound to it, two quorums share a validator, and a
validator is bound to one block of a height. A block that is prepared is safe in the same way as soon as
too many validators are bound to it for a quorum to be bound to another one. -/

namespace QuorumChain

namespace World

variable {n : ValidatorCount} [CryptoSuite] {w : World n} {i j : Fin n.total}

/-- Honest validators that start on empty ledgers are safe. -/
theorem Initial.safe {roster : Roster} {w : World roster.size} (hw : Initial roster w) : w.Safe := by
  have hstart : ∀ i, (w.core i).view.me = i ∧ (w.core i).Fit ∧ (w.core i).Informed w.history := by
    intro i
    obtain ⟨config, l, policy, clock, now, hempty, hpeers, hkey, hsigns, h⟩ := hw.started i
    have hl : l.Ordered := fun k b hb => by
      rw [hempty] at hb
      cases hb
    have hindex := ValidatorCount.memberAt?_indexOf i
    refine ⟨?_, Validator.fit_start hl hw.distinct hpeers (fun j hj => ?_) hsigns h,
      Validator.informed_start hempty h w.history⟩
    · obtain ⟨_, _, view, _, hview, hcore⟩ := Validator.start_core hl h
      rw [core, hcore]
      exact (Option.some.inj (hindex.symm.trans (View.start_ok hview).1)).symm
    · cases Option.some.inj (hindex.symm.trans hj)
      exact hkey
  refine ⟨fun i => (hstart i).1, fun i => (hstart i).2.1, fun i => (hstart i).2.2, fun p hp => ?_⟩
  rw [hw.silent] at hp
  cases hp

/-- **Honest validators are safe all along a run**, if identifiers tell blocks apart in it. -/
theorem Safe.after {run : List (Action n)} (hw : w.Safe)
    (hd : ∀ part, part <+: run → (w.after part).IdsDistinct) : (w.after run).Safe := by
  induction run generalizing w with
  | nil => exact hw
  | cons a run ih =>
      refine ih (hw.step (hd [] List.nil_prefix) a) fun part hpart => ?_
      exact hd (a :: part) (List.cons_prefix_cons.mpr ⟨rfl, hpart⟩)

/-- A quorum is bound to every block that is stored. -/
theorem Safe.quorum_bound (hw : w.Safe) {b : WitnessedBlock} {k : Nat}
    (hb : (w.core i).blocks[k]? = some b) :
    b.block.height.number = k ∧ ∃ S : Finset (Fin n.total), n.threshold ≤ S.card ∧
      ∀ j ∈ S, (w.core j).Locked b.block.height b.id := by
  obtain ⟨S, hcard, hall⟩ := (hw.informed i).stored b (List.mem_of_getElem? hb)
  refine ⟨(hw.fit i).coupled.heights k b hb, S, hcard, fun j hj => ?_⟩
  rcases hall j hj with hbound | ⟨rfl, hl⟩
  · exact hbound
  · rw [hw.me_eq i]
    exact hl

/-- If too many validators are bound to a block for the others to be a quorum, no other block is stored
at its height. -/
theorem Safe.stored_eq (hw : w.Safe) {h : Height} {r : BlockId} {S : Finset (Fin n.total)}
    (hmany : n.maxFaulty < S.card) (hbound : ∀ j ∈ S, (w.core j).Locked h r) {b : WitnessedBlock}
    (hb : (w.core i).blocks[h.number]? = some b) : b.id = r := by
  obtain ⟨hheight, T, hcard, hall⟩ := hw.quorum_bound hb
  have htotal : n.total < S.card + T.card := by
    have := n.maxFaulty_add_threshold
    omega
  obtain ⟨j, hS, hT⟩ := ValidatorCount.exists_mem_of_total_lt htotal
  have hl := hall j hT
  rw [Counter.ext hheight] at hl
  exact (hw.fit j).coupled.locked_unique hl (hbound j hS)

/-- **The chains of honest validators agree.** -/
theorem chains_agree {roster : Roster} {w : World roster.size} (hw : Initial roster w)
    (run : List (Action roster.size))
    (hd : ∀ part, part <+: run → (w.after part).IdsDistinct) (i j : Fin roster.size.total) (k : Nat)
    {b b' : WitnessedBlock} (hb : ((w.after run).core i).blocks[k]? = some b)
    (hb' : ((w.after run).core j).blocks[k]? = some b') : b.id = b'.id := by
  have hsafe := hw.safe.after hd
  obtain ⟨hheight, S, hcard, hall⟩ := hsafe.quorum_bound hb'
  have hpos := ((w.after run).core i).view.size_pos
  have hmany := Nat.lt_of_lt_of_le (ValidatorCount.maxFaulty_lt_threshold hpos) hcard
  rw [← hheight] at hb
  exact hsafe.stored_eq hmany hall hb

/-- **A block that a validator is prepared to commit is the one that gets stored at its height exactly if
more validators than may be faulty are bound to it.** -/
theorem prepared_stands_iff {roster : Roster} {w : World roster.size} (hw : Initial roster w)
    (run : List (Action roster.size))
    (hd : ∀ part, part <+: run → (w.after part).IdsDistinct) {h : Height} {r : BlockId}
    (i : Fin roster.size.total) {b : WitnessedBlock}
    (hb : ((w.after run).core i).blocks[h.number]? = some b) :
    b.id = r ↔ ∃ S : Finset (Fin roster.size.total), roster.size.maxFaulty < S.card ∧
      ∀ j ∈ S, ((w.after run).core j).Locked h r := by
  have hsafe := hw.safe.after hd
  constructor
  · rintro rfl
    obtain ⟨hheight, S, hcard, hall⟩ := hsafe.quorum_bound hb
    have hpos := ((w.after run).core i).view.size_pos
    refine ⟨S, Nat.lt_of_lt_of_le (ValidatorCount.maxFaulty_lt_threshold hpos) hcard, fun j hj => ?_⟩
    rw [← Counter.ext hheight]
    exact hall j hj
  · rintro ⟨S, hmany, hbound⟩
    exact hsafe.stored_eq hmany hbound hb

end World

section Quartet

local instance overtakenSuite : CryptoSuite := plainSuite

abbrev ticked (i : Fin quartet.total) : Action quartet := .own i (.tick .origin ⟨0⟩ 0) trivial

abbrev asked (i : Fin quartet.total) (clock : WallClock) : Action quartet :=
  .own i (.intentWanted clock) trivial

abbrev revolted (i : Fin quartet.total) : Action quartet := .own i .revolt trivial

abbrev worked (i : Fin quartet.total) (clock : WallClock) : Action quartet :=
  .own i (.workDone clock) trivial

abbrev taken (i : Fin quartet.total) : Action quartet := .own i .resultTaken trivial

/-- Validators 0, 1 and 2 hold the block of validator 0, but only validator 0 hears so and is prepared. -/
def onePrepared : List (Action quartet) :=
  [asked 0 ⟨0⟩, worked 0 ⟨0⟩, taken 0, ticked 0,
    .delivered 0, ticked 1, .delivered 3, .delivered 7, worked 1 ⟨0⟩, taken 1, ticked 1,
    .delivered 1, ticked 2, .delivered 11, .delivered 15, worked 2 ⟨0⟩, taken 2, ticked 2,
    .delivered 8, .delivered 16]

/-- The others revolt, and validators 2 and 1 give the block up. -/
def othersRevolted : List (Action quartet) :=
  [revolted 1, revolted 2, revolted 3, ticked 1, ticked 2, ticked 3,
    .delivered 27, .delivered 20, ticked 2, .delivered 26, .delivered 30]

/-- Validator 1 builds another block, and the others hold it and are prepared. -/
def othersPrepared : List (Action quartet) :=
  [asked 1 ⟨5⟩, worked 1 ⟨5⟩, taken 1, ticked 1, .delivered 33, ticked 2, .delivered 31, .delivered 34,
    ticked 3, .delivered 35, .delivered 36, .delivered 40, .delivered 41, worked 2 ⟨0⟩, taken 2,
    worked 3 ⟨0⟩, taken 3, ticked 2, ticked 3, .delivered 43, .delivered 46, .delivered 44, .delivered 47,
    ticked 2, ticked 3]

/-- Validators 1 and 2 get the signatures over that block, and store it. -/
def othersStored : List (Action quartet) :=
  [.delivered 49, .delivered 52, ticked 1, .delivered 54, .delivered 55, .delivered 59, .delivered 60,
    asked 1 ⟨0⟩, worked 1 ⟨0⟩, .delivered 57, .delivered 53, ticked 2, .delivered 61, .delivered 62,
    .delivered 63, .delivered 64, asked 2 ⟨0⟩, worked 2 ⟨0⟩]

def overtaken : List (Action quartet) :=
  onePrepared ++ othersRevolted ++ othersPrepared ++ othersStored

def quartetWorld : World quartet := plainWorld quartet (by decide +kernel)

theorem quartetWorld_initial : World.Initial (plainRoster quartet) quartetWorld :=
  plainWorld_initial (by decide +kernel) (fun key id => plain_sign_valid id key) (by decide +kernel)

def overtakenWorld : World quartet := quartetWorld.after overtaken

theorem overtaken_distinct (part : List (Action quartet)) (hpart : part <+: overtaken) :
    (quartetWorld.after part).IdsDistinct := by
  have hall : quartetWorld.IdsDistinctAlong overtaken := by decide +kernel
  exact World.idsDistinctAlong_iff.mp hall part hpart

/-- Validators 1 and 2 have stored a block that validator 3 is prepared to commit too, while validator 0
is prepared to commit another one. -/
theorem overtaken_end :
    ∃ b b' r, (overtakenWorld.core 1).blocks[0]? = some b ∧ (overtakenWorld.core 2).blocks[0]? = some b' ∧
      (overtakenWorld.core 3).Locked .zero b.id ∧ (overtakenWorld.core 0).view.own.height = .zero ∧
      (overtakenWorld.core 0).view.own.phase = .prepared ∧
      (overtakenWorld.core 0).view.own.block = some r ∧ b.id ≠ r := by
  have hend : (overtakenWorld.core 1).blocks[0]?.isSome = true ∧
      (overtakenWorld.core 2).blocks[0]?.isSome = true ∧
      (overtakenWorld.core 0).view.own.block.isSome = true ∧
      (overtakenWorld.core 3).view.own.height = .zero ∧
      (overtakenWorld.core 3).view.own.phase = .prepared ∧
      (overtakenWorld.core 3).view.own.block = (overtakenWorld.core 1).blocks[0]?.map (·.id) ∧
      (overtakenWorld.core 0).view.own.height = .zero ∧
      (overtakenWorld.core 0).view.own.phase = .prepared ∧
      (overtakenWorld.core 1).blocks[0]?.map (·.id) ≠ (overtakenWorld.core 0).view.own.block := by
    decide +kernel
  obtain ⟨hfirst, hsecond, hheld, hheight₃, hphase₃, hblock₃, hheight, hphase, hother⟩ := hend
  obtain ⟨b, hb⟩ := Option.isSome_iff_exists.mp hfirst
  obtain ⟨b', hb'⟩ := Option.isSome_iff_exists.mp hsecond
  obtain ⟨r, hr⟩ := Option.isSome_iff_exists.mp hheld
  rw [hb] at hblock₃ hother
  refine ⟨b, b', r, hb, hb', .inl ⟨hheight₃, hphase₃, hblock₃⟩, hheight, hphase, hr, fun heq => hother ?_⟩
  rw [hr, ← heq]
  rfl

/-- Validators 1 and 2 agree on the block that they have stored. -/
theorem chains_agree_overtaken :
    ∃ b b', (overtakenWorld.core 1).blocks[0]? = some b ∧
      (overtakenWorld.core 2).blocks[0]? = some b' ∧ b.id = b'.id := by
  obtain ⟨b, b', _, hb, hb', _⟩ := overtaken_end
  exact ⟨b, b', hb, hb', World.chains_agree quartetWorld_initial overtaken overtaken_distinct 1 2 0 hb hb'⟩

/-- Validators 1 and 3 are bound to the block of validator 1, so validator 2 has stored that block. -/
theorem prepared_stands_overtaken :
    ∃ b b', (overtakenWorld.core 1).blocks[0]? = some b ∧ (overtakenWorld.core 2).blocks[0]? = some b' ∧
      b'.id = b.id := by
  obtain ⟨b, b', _, hb, hb', hbound, _⟩ := overtaken_end
  refine ⟨b, b', hb, hb', (World.prepared_stands_iff quartetWorld_initial overtaken overtaken_distinct
    (h := .zero) 2 hb').mpr ⟨{1, 3}, by decide, fun j hj => ?_⟩⟩
  rcases Finset.mem_insert.mp hj with rfl | hj
  · exact .inr ⟨b, hb, rfl⟩
  · rw [Finset.mem_singleton.mp hj]
    exact hbound

/-- A validator that is alone in being prepared can be overtaken: the others give its block up in a
revolt and commit another one. -/
theorem prepared_overtaken :
    ∃ (w : World quartet) (run : List (Action quartet)), World.Initial (plainRoster quartet) w ∧
      (∀ part, part <+: run → (w.after part).IdsDistinct) ∧
      ∃ i j h r b, ((w.after run).core i).view.own.height = h ∧
        ((w.after run).core i).view.own.phase = .prepared ∧
        ((w.after run).core i).view.own.block = some r ∧
        ((w.after run).core j).blocks[h.number]? = some b ∧ b.id ≠ r := by
  obtain ⟨b, _, r, hb, _, _, hheight, hphase, hr, hne⟩ := overtaken_end
  exact ⟨quartetWorld, overtaken, quartetWorld_initial, overtaken_distinct, 0, 1, .zero, r, b, hheight,
    hphase, hr, hb, hne⟩

end Quartet

end QuorumChain
