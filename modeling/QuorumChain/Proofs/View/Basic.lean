import QuorumChain.Proofs.Change
import QuorumChain.View.Event

/-! The fields of a view after each elementary change, and the elementary changes that may fail. -/

namespace QuorumChain

namespace View

variable {n : ValidatorCount} {v w : View n}

@[simp] theorem own_setOwn (v : View n) (s : Status) : (v.setOwn s).own = s := by
  simp [own, setOwn]

@[simp] theorem own_withIntent (v : View n) (i : Intent) : (v.withIntent i).own = v.own := rfl

@[simp] theorem own_clearSignatures (v : View n) : v.clearSignatures.own = v.own := rfl

@[simp] theorem me_setOwn (v : View n) (s : Status) : (v.setOwn s).me = v.me := rfl

@[simp] theorem me_withIntent (v : View n) (i : Intent) : (v.withIntent i).me = v.me := rfl

@[simp] theorem me_clearSignatures (v : View n) : v.clearSignatures.me = v.me := rfl

@[simp] theorem intent_setOwn (v : View n) (s : Status) : (v.setOwn s).intent = v.intent := rfl

@[simp] theorem intent_withIntent (v : View n) (i : Intent) : (v.withIntent i).intent = i := rfl

@[simp] theorem intent_clearSignatures (v : View n) : v.clearSignatures.intent = v.intent := rfl

@[simp] theorem signatures_setOwn (v : View n) (s : Status) :
    (v.setOwn s).signatures = v.signatures := rfl

@[simp] theorem signatures_withIntent (v : View n) (i : Intent) :
    (v.withIntent i).signatures = v.signatures := rfl

@[simp] theorem signatures_clearSignatures (v : View n) :
    v.clearSignatures.signatures = .replicate n.total none := rfl

@[simp] theorem statuses_withIntent (v : View n) (i : Intent) :
    (v.withIntent i).statuses = v.statuses := rfl

@[simp] theorem statuses_clearSignatures (v : View n) : v.clearSignatures.statuses = v.statuses := rfl

theorem statuses_setOwn (v : View n) (s : Status) {i : Fin n.total} (h : i ≠ v.me) :
    (v.setOwn s).statuses[i] = v.statuses[i] := by
  have hne : (v.me : Nat) ≠ i := fun he => h (Fin.ext he.symm)
  simp [setOwn, hne]

theorem own_setStatus {i : Fin n.total} {s : Status} (h : i ≠ v.me) :
    ({ v with statuses := n.update v.statuses i s } : View n).own = v.own := by
  have hne : (i : Nat) ≠ v.me := fun he => h (Fin.ext he)
  simp [own, hne]

@[simp] theorem setOwn_setOwn (v : View n) (s t : Status) : (v.setOwn s).setOwn t = v.setOwn t := by
  simp [setOwn]

/-- What is counted of the statuses does not change with the own one if that counts as before. -/
theorem count_setOwn {p : Status → Bool} {s : Status} (h : p s = p v.own) :
    (v.setOwn s).count p = v.count p := by
  have hle : (if p v.own then 1 else 0) ≤ v.statuses.countP p :=
    Vector.boole_getElem_le_countP v.me.isLt
  show (v.statuses.set v.me s).countP p = v.statuses.countP p
  rw [Vector.countP_set, h]
  show v.statuses.countP p - (if p v.own then 1 else 0) + (if p v.own then 1 else 0) = _
  omega

theorem bump_eq_ok :
    v.bump = .ok w ↔ ∃ serial, v.own.serial.next = some serial ∧ w = v.setOwn { v.own with serial } := by
  unfold bump
  cases v.own.serial.next with
  | none => simp
  | some serial => simp [eq_comm]

theorem nextRound_eq_ok :
    v.nextRound = .ok w ↔ ∃ round, v.own.round.next = some round ∧ w = v.setOwn { v.own with round } := by
  unfold nextRound
  cases v.own.round.next with
  | none => simp
  | some round => simp [eq_comm]

theorem nextHeight_eq_ok :
    v.nextHeight = .ok w ↔
      ∃ height, v.own.height.next = some height ∧ w = v.setOwn { v.own with height } := by
  unfold nextHeight
  cases v.own.height.next with
  | none => simp
  | some height => simp [eq_comm]

/-- The view without its block, if that is held but not prepared. -/
theorem dropHeldBlock_eq_ok :
    v.dropHeldBlock = .ok w ↔ (v.own.phase ≠ .haveBlock ∧ w = v) ∨
      (v.own.phase = .haveBlock ∧ ∃ serial, v.own.serial.next = some serial ∧
        w = (v.setOwn { v.own with phase := .waitBlock, block := none, serial }).clearSignatures) := by
  unfold dropHeldBlock
  split
  next h =>
    simp only [dropBlock, bind_eq_ok, bump_eq_ok, own_setOwn, setOwn_setOwn, pure_eq_ok, h]
    grind
  next h =>
    simp [h, eq_comm]

theorem start_ok {me : PeerIndex} {height : Height} {cap : Nat} {serial : Serial}
    (h : View.start n me height cap serial = .ok v) :
    n.memberAt? me = some v.me ∧ v.own = .start height serial ∧
      (∀ i : Fin n.total, i ≠ v.me → v.statuses[i] = .unknown) ∧
      v.signatures = .replicate n.total none ∧ v.intent = .doNothing := by
  unfold View.start at h
  split at h
  · cases h
  · split at h
    · cases h
    next i hi =>
      cases h
      refine ⟨hi, by simp [own], fun j hj => ?_, rfl, rfl⟩
      have hne : (i : Nat) ≠ j := fun he => hj (Fin.ext he.symm)
      simp [hne]

theorem toList_members {α : Type} (xs : Vector α n.total) :
    xs.toList = (List.finRange n.total).map fun i => xs[i] := by
  apply List.ext_getElem
  · simp
  · simp

theorem recorded_eq (v : View n) :
    v.recorded = (List.finRange n.total).filterMap fun i => v.signatures[i] := by
  rw [recorded, toList_members, List.filterMap_map]
  rfl

theorem mem_recorded {s : CommitSignature} :
    s ∈ v.recorded ↔ ∃ i : Fin n.total, v.signatures[i] = some s := by
  rw [recorded_eq, List.mem_filterMap]
  simp only [List.mem_finRange, true_and]

theorem length_recorded (v : View n) : v.recorded.length = v.signatures.countP Option.isSome := by
  rw [recorded, List.length_filterMap_eq_countP, ← Vector.countP_toList]
  rfl

/-- There are at least as many signatures if every position that had one has one. -/
theorem length_recorded_le
    (h : ∀ i : Fin n.total, (v.signatures[i]).isSome = true → (w.signatures[i]).isSome = true) :
    v.recorded.length ≤ w.recorded.length := by
  simp only [recorded_eq, List.length_filterMap_eq_countP]
  exact List.countP_mono_left fun i _ => h i

end View

end QuorumChain
